import KvStore.BtreeWalk
import KvStore.Theorems.Btree

/-! The scans of a B-tree go through the sorted list of its items, and its iterators stand in that list. -/

namespace KvStore.Btree
open Ordered Weave Std

variable {α σ : Type} {b : Settings α} {t : Btree α}

/-! ### Scans -/

section Scans
variable {iter : α → σ → σ × Bool} {h : Nat} {node : Node α} {u : σ}

theorem visit_append : ∀ {xs ys : List α} {u : σ}, visit iter (xs ++ ys) u =
    if (visit iter xs u).2 then visit iter ys (visit iter xs u).1 else ((visit iter xs u).1, false)
  | [], _, _ => rfl
  | x :: xs, ys, u => by
    simp only [List.cons_append, visit]
    by_cases hmore : (iter x u).2 = true
    · simp only [hmore, if_true]
      exact visit_append
    · simp [hmore]

/-- The items of a branch with the children behind them, each child scanned as its list of items. -/
theorem visitPairs_eq {scan : Node α → σ → Option (σ × Bool)} {contents : Node α → List α} {xs : List α}
    {cs : List (Node α)} (hlen : xs.length = cs.length)
    (hscan : ∀ c ∈ cs, ∀ u, scan c u = some (visit iter (contents c) u)) :
    visitPairs iter scan xs cs u = some (visit iter (back xs (cs.map contents)) u) := by
  induction xs generalizing cs u with
  | nil => simp [visitPairs, visit]
  | cons x xs ih =>
    obtain ⟨c, cs, rfl⟩ := List.exists_cons_of_length_eq_add_one hlen.symm
    rw [List.forall_mem_cons] at hscan
    simp only [visitPairs, List.map_cons, back, visit]
    by_cases hmore : (iter x u).2 = true
    · simp only [hmore, if_true, hscan.1, Option.bind_eq_bind, Option.bind_some, visit_append,
        ih (Nat.succ.inj hlen) hscan.2]
      exact (apply_ite some _ _ _).symm
    · simp [hmore]

/-- The same from the last item to the first, with the children in front of them. -/
theorem visitPairs_reverse {scan : Node α → σ → Option (σ × Bool)} {xs : List α} {cs : List (Node α)}
    (hlen : cs.length = xs.length) (hscan : ∀ c ∈ cs, ∀ u, scan c u = some (visit iter c.toList.reverse u)) :
    visitPairs iter scan xs.reverse cs.reverse u = some (visit iter (before xs cs).reverse u) := by
  have hlen' : xs.reverse.length = cs.reverse.length := by simp [hlen]
  rw [before, reverse_front (by rw [List.length_map, hlen]), List.map_map, ← List.map_reverse]
  exact visitPairs_eq hlen' fun c hc => hscan c (List.mem_reverse.mp hc)

/-- A part of a scan and the rest of it. -/
theorem scan_append {xs ys : List α} {rest : σ → Option (σ × Bool)}
    (hrest : ∀ u, rest u = some (visit iter ys u)) :
    (if (visit iter xs u).2 then rest (visit iter xs u).1 else some ((visit iter xs u).1, false)) =
      some (visit iter (xs ++ ys) u) := by
  rw [visit_append, hrest]
  exact (apply_ite some _ _ _).symm

theorem nodeScan_eq : ∀ {h : Nat} {node : Node α}, node.Shape b h → ∀ u,
    nodeScan iter (h + 1) node u = some (visit iter node.toList u)
  | 0, .branch .., hn, _ => hn.elim
  | _ + 1, .leaf _, hn, _ => hn.elim
  | 0, .leaf items, _, u => rfl
  | h + 1, .branch items children, hn, u => by
    obtain ⟨-, hlen, hchildren⟩ := Node.shape_branch.mp hn
    obtain ⟨c, cs, rfl⟩ := List.exists_cons_of_length_eq_add_one hlen
    rw [List.forall_mem_cons] at hchildren
    have hcs : items.length = cs.length := (Nat.succ.inj hlen).symm
    rw [Node.toList_branch, List.map_cons, weave_back (by rw [List.length_map, hcs])]
    simp only [nodeScan, List.getElem?_cons_zero, Option.bind_eq_bind, Option.bind_some, nodeScan_eq hchildren.1.1,
      List.drop_one, List.tail_cons]
    exact scan_append fun u => visitPairs_eq hcs fun c hc => nodeScan_eq (hchildren.2 c hc).1

theorem nodeReverse_eq (hb : b.Ok) : ∀ {h : Nat} {node : Node α}, node.Shape b h → 0 < node.nitems → ∀ u,
    nodeReverse iter (h + 1) node u = some (visit iter node.toList.reverse u)
  | 0, .branch .., hn, _, _ => hn.elim
  | _ + 1, .leaf _, hn, _, _ => hn.elim
  | 0, .leaf items, _, hpos, u => by
    have hpos' : items.length ≠ 0 := hpos.ne'
    rw [nodeReverse, if_neg hpos', Node.toList_leaf]
  | h + 1, .branch items children, hn, hpos, u => by
    rw [← List.append_nil items] at hn
    obtain ⟨cs, c, ds, rfl, hcs, hds⟩ := hn.place
    obtain rfl := List.eq_nil_of_length_eq_zero hds
    obtain ⟨-, -, hc, hchildren, -⟩ := (Node.shape_focus hcs).mp hn
    have hfocus : (Node.branch items (cs ++ [c])).toList = before items cs ++ c.toList := by
      have hfocus := Node.toList_focus (c := c) hcs hds
      rwa [List.append_nil, behind, back_nil, List.append_nil] at hfocus
    have hpos' : items.length ≠ 0 := hpos.ne'
    simp only [nodeReverse, get_place hcs, Option.bind_eq_bind, Option.bind_some, nodeReverse_eq hb hc.1 (hc.pos hb),
      if_neg hpos', List.take_left' hcs, hfocus, List.reverse_append]
    exact scan_append fun u => visitPairs_reverse hcs fun d hd =>
      nodeReverse_eq hb (hchildren d hd).1 ((hchildren d hd).pos hb)

section Pivot
variable [TransCmp b.compare] (hb : b.Ok) (pivot : α)
include hb

/-- A scan from a pivot goes through the items that are not less than it, with any hint. -/
theorem nodeAscend_eq : ∀ {h : Nat} {node : Node α}, node.Shape b h → Sorted b.compare node.toList → 0 < node.nitems →
    ∀ u hint depth, nodeAscend b iter (h + 1) node pivot u hint depth =
      some (visit iter (atLeast b.compare pivot node.toList) u)
  | 0, .branch .., hn, _, _ => hn.elim
  | _ + 1, .leaf _, hn, _, _ => hn.elim
  | 0, .leaf items, hn, hs, hpos => by
    intro u hint depth
    obtain ⟨i, found, hsplits⟩ := Sorted.splits hs pivot
    obtain ⟨hint', hsearch⟩ := finds_splits hs (List.ne_nil_of_length_pos hpos) hsplits hint depth
    rw [Node.toList_leaf] at hsearch hsplits ⊢
    simp only [nodeAscend, hsearch, Option.bind_eq_bind, Option.bind_some]
    rcases hsplits.parts with ⟨xs, y, ys, rfl, rfl, -, hx, heq, hy⟩ | ⟨xs, ys, rfl, rfl, -, hx, hy⟩
    · rw [atLeast_hit hx hy heq, List.drop_left' rfl]
    · rw [atLeast_miss hx hy, List.drop_left' rfl]
  | h + 1, .branch items children, hn, hs, hpos => by
    intro u hint depth
    have hchildren := (Node.shape_branch.mp hn).2.2
    obtain ⟨i, found, hsplits⟩ := (sorted_items hn hs).splits pivot
    obtain ⟨hint₁, hsearch⟩ := finds_splits (sorted_items hn hs) (List.ne_nil_of_length_pos hpos) hsplits hint depth
    rw [Node.items] at hsearch hsplits
    simp only [nodeAscend, hsearch, Option.bind_eq_bind, Option.bind_some]
    rcases hsplits.parts with ⟨xs, y, ys, rfl, rfl, rfl, hx, heq, hy⟩ | ⟨xs, ys, rfl, rfl, rfl, hx, hy⟩
    · obtain ⟨cs, c, ds, rfl, hcs, hds⟩ := hn.place
      have hlist : (Node.branch (xs ++ y :: ys) (cs ++ c :: ds)).toList =
          (before xs cs ++ c.toList) ++ behind (y :: ys) ds := by
        rw [Node.toList_focus hcs hds, List.append_assoc]
      have hrest : atLeast b.compare pivot ((before xs cs ++ c.toList) ++ behind (y :: ys) ds) =
          behind (y :: ys) ds := by
        obtain ⟨d, ds, rfl⟩ := List.exists_cons_of_length_eq_add_one hds
        have haround := Sorted.around (k := pivot) (hlist ▸ hs)
        exact atLeast_hit (haround.1 (by simp [heq])) (haround.2 (by simp [heq])) heq
      rw [hlist, hrest, if_pos rfl, List.drop_left' rfl, drop_next hcs]
      exact visitPairs_eq hds.symm fun d hd => nodeScan_eq (hchildren d (by simp [hd])).1
    · obtain ⟨cs, c, ds, rfl, hcs, hds⟩ := hn.place
      obtain ⟨-, -, hc, -, hds'⟩ := (Node.shape_focus hcs).mp hn
      rw [Node.toList_focus hcs hds, atLeast_frame (gt_before hcs hds hs hx) (lt_behind hcs hds hs hy)]
      simp only [Bool.false_eq_true, if_false, get_place hcs, Option.bind_some, List.drop_left' rfl, drop_next hcs,
        nodeAscend_eq hc.1 (sorted_child hcs hds hs) (hc.pos hb)]
      exact scan_append fun u => visitPairs_eq hds.symm fun d hd => nodeScan_eq (hds' d hd).1

/-- A scan down from a pivot goes back through the items that are not greater than it. -/
theorem nodeDescend_eq : ∀ {h : Nat} {node : Node α}, node.Shape b h → Sorted b.compare node.toList → 0 < node.nitems →
    ∀ u hint depth, nodeDescend b iter (h + 1) node pivot u hint depth =
      some (visit iter (atMost b.compare pivot node.toList).reverse u)
  | 0, .branch .., hn, _, _ => hn.elim
  | _ + 1, .leaf _, hn, _, _ => hn.elim
  | 0, .leaf items, hn, hs, hpos => by
    intro u hint depth
    obtain ⟨i, found, hsplits⟩ := Sorted.splits hs pivot
    obtain ⟨hint', hsearch⟩ := finds_splits hs (List.ne_nil_of_length_pos hpos) hsplits hint depth
    rw [Node.toList_leaf] at hsearch hsplits ⊢
    simp only [nodeDescend, hsearch, Option.bind_eq_bind, Option.bind_some]
    rcases hsplits.parts with ⟨xs, y, ys, rfl, rfl, rfl, hx, heq, hy⟩ | ⟨xs, ys, rfl, rfl, rfl, hx, hy⟩
    · rw [atMost_hit hx hy heq, if_pos rfl, List.append_cons, List.take_left' (by simp)]
    · rw [atMost_miss hx hy, if_neg Bool.false_ne_true, List.take_left' rfl]
  | h + 1, .branch items children, hn, hs, hpos => by
    intro u hint depth
    have hchildren := (Node.shape_branch.mp hn).2.2
    obtain ⟨i, found, hsplits⟩ := (sorted_items hn hs).splits pivot
    obtain ⟨hint₁, hsearch⟩ := finds_splits (sorted_items hn hs) (List.ne_nil_of_length_pos hpos) hsplits hint depth
    rw [Node.items] at hsearch hsplits
    simp only [nodeDescend, hsearch, Option.bind_eq_bind, Option.bind_some]
    have hreverse (d : Node α) (hd : d.Child b h) (u : σ) :
        nodeReverse iter (h + 1) d u = some (visit iter d.toList.reverse u) :=
      nodeReverse_eq hb hd.1 (hd.pos hb) u
    rcases hsplits.parts with ⟨xs, y, ys, rfl, rfl, rfl, hx, heq, hy⟩ | ⟨xs, ys, rfl, rfl, rfl, hx, hy⟩
    · obtain ⟨cs, c, ds, rfl, hcs, hds⟩ := hn.place
      obtain ⟨d, ds, rfl⟩ := List.exists_cons_of_length_eq_add_one hds
      have hlist : (Node.branch (xs ++ y :: ys) (cs ++ c :: d :: ds)).toList =
          (before xs cs ++ c.toList) ++ y :: (d.toList ++ behind ys ds) := by
        rw [Node.toList_focus hcs hds, List.append_assoc]
        rfl
      have hrest : atMost b.compare pivot ((before xs cs ++ c.toList) ++ y :: (d.toList ++ behind ys ds)) =
          before (xs ++ [y]) (cs ++ [c]) := by
        have haround := Sorted.around (k := pivot) (hlist ▸ hs)
        rw [atMost_hit (haround.1 (by simp [heq])) (haround.2 (by simp [heq])) heq, List.append_assoc, before, before,
          List.map_append, List.map_singleton, front_concat (by rw [List.length_map, hcs])]
      rw [hlist, hrest, if_pos rfl, List.append_cons xs, List.append_cons cs, List.take_left' (by simp),
        List.take_left' (by simp [hcs])]
      have hlen : (cs ++ [c]).length = (xs ++ [y]).length := by simp [hcs]
      exact visitPairs_reverse hlen fun e he => hreverse e (hchildren e (by grind))
    · obtain ⟨cs, c, ds, rfl, hcs, hds⟩ := hn.place
      obtain ⟨-, -, hc, hcs', -⟩ := (Node.shape_focus hcs).mp hn
      rw [Node.toList_focus hcs hds, atMost_frame (gt_before hcs hds hs hx) (lt_behind hcs hds hs hy),
        List.reverse_append]
      simp only [Bool.false_eq_true, if_false, get_place hcs, Option.bind_some, List.take_left' rfl,
        List.take_left' hcs, nodeDescend_eq hc.1 (sorted_child hcs hds hs) (hc.pos hb)]
      exact scan_append fun u => visitPairs_reverse hcs fun d hd => hreverse d (hcs' d hd)

end Pivot

end Scans

/-- What a scan goes through from a pivot upwards, or from the first item. -/
def upFrom (compare : α → α → Ordering) (pivot : Option α) (l : List α) : List α :=
  pivot.elim l fun pivot => atLeast compare pivot l

def downFrom (compare : α → α → Ordering) (pivot : Option α) (l : List α) : List α :=
  (pivot.elim l fun pivot => atMost compare pivot l).reverse

section Trees
variable [TransCmp b.compare] (hb : b.Ok) (ht : Valid b t) (iter : α → σ → σ × Bool) (pivot : Option α) (u : σ)
  (hint : Option Hint)
include hb ht

theorem ascend_valid : ascend b iter t pivot u hint = some (visit iter (upFrom b.compare pivot t.toList) u) := by
  rcases ht.cases with ht | ⟨root, h, ht, hshape, hpos, hs⟩
  · rw [ht]
    cases pivot <;> rfl
  · rw [ht]
    cases pivot with
    | none => exact nodeScan_eq hshape u
    | some pivot => exact nodeAscend_eq hb pivot hshape hs hpos u hint 0

theorem descend_valid : descend b iter t pivot u hint = some (visit iter (downFrom b.compare pivot t.toList) u) := by
  rcases ht.cases with ht | ⟨root, h, ht, hshape, hpos, hs⟩
  · rw [ht]
    cases pivot <;> rfl
  · rw [ht]
    cases pivot with
    | none => exact nodeReverse_eq hb hshape hpos u
    | some pivot => exact nodeDescend_eq hb pivot hshape hs hpos u hint 0

end Trees

/-- A scan of a tree, after any run of calls, goes through the items of the sorted list that the answers of that run
    stand for: from the pivot on, in order or backwards, with any hint, until the callback returns false. -/
theorem runs_scan (compare : α → α → Ordering) [TransCmp compare] (maxItems : Nat) (calls : List (Call α)) :
    ∃ t rets s, Run.runs (step ⟨compare, normalizeMaxItems maxItems⟩) new calls = some (t, rets) ∧
      Run.Allowed (Serves compare) ([], false) calls rets s ∧
      ∀ (iter : α → σ → σ × Bool) (pivot : Option α) (u : σ) (hint : Option Hint),
        ascend ⟨compare, normalizeMaxItems maxItems⟩ iter t pivot u hint =
          some (visit iter (upFrom compare pivot s.1) u) ∧
        descend ⟨compare, normalizeMaxItems maxItems⟩ iter t pivot u hint =
          some (visit iter (downFrom compare pivot s.1) u) := by
  have hb := normalizeMaxItems_ok compare maxItems
  obtain ⟨t, rets, s, hrun, hallowed, ht, rfl⟩ := runs_stands hb calls
  exact ⟨t, rets, _, hrun, hallowed, fun iter pivot u hint =>
    ⟨ascend_valid hb ht iter pivot u hint, descend_valid hb ht iter pivot u hint⟩⟩

theorem runs_scan_growAndShrink : ∃ t rets s,
    Run.runs (step ⟨compare, normalizeMaxItems 4⟩) new growAndShrink = some (t, rets) ∧
    Run.Allowed (Serves compare) ([], false) growAndShrink rets s ∧
    ∀ (iter : Nat → List Nat → List Nat × Bool) (pivot : Option Nat) (u : List Nat) (hint : Option Hint),
      ascend ⟨compare, normalizeMaxItems 4⟩ iter t pivot u hint = some (visit iter (upFrom compare pivot s.1) u) ∧
      descend ⟨compare, normalizeMaxItems 4⟩ iter t pivot u hint = some (visit iter (downFrom compare pivot s.1) u) :=
  runs_scan compare 4 growAndShrink

/-! ### Iterators -/

section Iterators

/-- The frames of a stack are the way down from the root to a node of height `h`. In front of the node are the items
    `pre`, behind it the items `post`. -/
inductive Path (root : Node α) (top : Nat) : Nat → List (Node α × Int) → List α → Node α → List α → Prop where
  | root : Path root top top [] [] root []
  | down {h : Nat} {stack : List (Node α × Int)} {pre post xs ys : List α} {cs ds : List (Node α)} {c : Node α} :
      Path root top (h + 1) stack pre (.branch (xs ++ ys) (cs ++ c :: ds)) post → cs.length = xs.length →
      ds.length = ys.length → Path root top h ((.branch (xs ++ ys) (cs ++ c :: ds), xs.length) :: stack)
        (pre ++ before xs cs) c (behind ys ds ++ post)

/-- The stack of an iterator that is on the item `x`: its way, and the place of the item in the node at the end. -/
inductive At (root : Node α) (top : Nat) : List (Node α × Int) → List α → α → List α → Prop where
  | leaf {stack : List (Node α × Int)} {pre post xs ys : List α} {x : α} :
      Path root top 0 stack pre (.leaf (xs ++ x :: ys)) post →
      At root top ((.leaf (xs ++ x :: ys), xs.length) :: stack) (pre ++ xs) x (ys ++ post)
  | branch {h : Nat} {stack : List (Node α × Int)} {pre post xs ys : List α} {x : α} {cs ds : List (Node α)}
      {c d : Node α} : Path root top (h + 1) stack pre (.branch (xs ++ x :: ys) (cs ++ c :: d :: ds)) post →
      cs.length = xs.length → ds.length = ys.length →
      At root top ((.branch (xs ++ x :: ys) (cs ++ c :: d :: ds), xs.length) :: stack)
        (pre ++ (before xs cs ++ c.toList)) x (d.toList ++ (behind ys ds ++ post))

/-- The node at the end of a way. -/
structure Reached (b : Settings α) (root : Node α) (top h : Nat) (stack : List (Node α × Int)) (pre : List α)
    (node : Node α) (post : List α) : Prop where
  shape : node.Shape b h
  pos : 0 < node.nitems
  height : stack.length + h = top
  toList : root.toList = pre ++ (node.toList ++ post)

variable {root node : Node α} {top h fuel : Nat} {stack : List (Node α × Int)} {pre post xs ys : List α} {x : α}
  {it : Iter α}

theorem Node.toList_item {cs ds : List (Node α)} {c d : Node α} (hcs : cs.length = xs.length)
    (hds : ds.length = ys.length) : (Node.branch (xs ++ x :: ys) (cs ++ c :: d :: ds)).toList =
      before xs cs ++ (c.toList ++ x :: (d.toList ++ behind ys ds)) := by
  have hds' : (d :: ds).length = (x :: ys).length := congrArg Nat.succ hds
  exact Node.toList_focus hcs hds'

section Ways
variable (hb : b.Ok) (hroot : root.Shape b top) (hpos : 0 < root.nitems)
include hb hroot hpos

theorem Path.reached (hp : Path root top h stack pre node post) : Reached b root top h stack pre node post := by
  induction hp with
  | root => exact ⟨hroot, hpos, Nat.zero_add top, by simp⟩
  | down _ hcs hds ih =>
    obtain ⟨hn, -, hlen, hlist⟩ := ih
    obtain ⟨-, -, hc, -⟩ := (Node.shape_focus hcs).mp hn
    refine ⟨hc.1, hc.pos hb, ?_, ?_⟩
    · rw [List.length_cons, ← hlen]
      omega
    · rw [hlist, Node.toList_focus hcs hds]
      simp only [List.append_assoc]

theorem At.toList (ha : At root top stack pre x post) : root.toList = pre ++ x :: post := by
  cases ha with
  | leaf hp =>
    rw [(hp.reached hb hroot hpos).toList]
    simp
  | branch hp hcs hds =>
    rw [(hp.reached hb hroot hpos).toList, Node.toList_item hcs hds]
    simp

variable (ht : t.height = top + 1)
include ht

/-- There is a place left on the stack. -/
theorem push_reached (hp : Path root top h stack pre node post) (index : Int) :
    Iter.push t (node, index) stack = some ((node, index) :: stack) := by
  have hlen := (hp.reached hb hroot hpos).height
  rw [Iter.push, if_pos (by omega)]

theorem pushFirst_at : ∀ {h fuel : Nat} {node : Node α} {stack : List (Node α × Int)} {post : List α},
    Path root top h stack pre node post → h < fuel → ∃ x rest stack', node.toList ++ post = x :: rest ∧
      Iter.pushFirst t fuel node stack = some stack' ∧ At root top stack' pre x rest
  | _, 0, _, _, _, _, hfuel => (Nat.not_lt_zero _ hfuel).elim
  | 0, fuel + 1, .branch .., _, _, hp, _ => (hp.reached hb hroot hpos).shape.elim
  | _ + 1, fuel + 1, .leaf _, _, _, hp, _ => (hp.reached hb hroot hpos).shape.elim
  | 0, fuel + 1, .leaf items, stack, post, hp, _ => by
    obtain ⟨x, ys, rfl⟩ := List.exists_cons_of_ne_nil (List.ne_nil_of_length_pos (hp.reached hb hroot hpos).pos)
    have hat : At root top ((.leaf ([] ++ x :: ys), (0 : Nat)) :: stack) (pre ++ []) x (ys ++ post) := .leaf hp
    rw [List.append_nil] at hat
    exact ⟨x, _, _, rfl, push_reached hb hroot hpos ht hp 0, hat⟩
  | h + 1, fuel + 1, .branch items children, stack, post, hp, hfuel => by
    have hn : (Node.branch ([] ++ items) children).Shape b (h + 1) := (hp.reached hb hroot hpos).shape
    obtain ⟨cs, c, ds, rfl, hcs, hds⟩ := hn.place
    obtain rfl := List.eq_nil_of_length_eq_zero hcs
    have hp' : Path root top h ((.branch ([] ++ items) ([] ++ c :: ds), (0 : Nat)) :: stack) (pre ++ []) c
        (behind items ds ++ post) := .down hp hcs hds
    rw [List.append_nil] at hp'
    obtain ⟨x, rest, stack', hlist, hpush, hat⟩ := pushFirst_at hp' (Nat.lt_of_succ_lt_succ hfuel)
    have hfocus : (Node.branch ([] ++ items) ([] ++ c :: ds)).toList = [] ++ (c.toList ++ behind items ds) :=
      Node.toList_focus hcs hds
    refine ⟨x, rest, stack', ?_, ?_, hat⟩
    · rw [← hlist, ← List.append_assoc]
      exact congrArg (· ++ post) hfocus
    · rw [Iter.pushFirst, push_reached hb hroot hpos ht hp]
      exact hpush

theorem pushLast_at : ∀ {h fuel : Nat} {node : Node α} {stack : List (Node α × Int)} {pre : List α},
    Path root top h stack pre node post → h < fuel → ∃ rest x stack', pre ++ node.toList = rest ++ [x] ∧
      Iter.pushLast t fuel node stack = some stack' ∧ At root top stack' rest x post
  | _, 0, _, _, _, _, hfuel => (Nat.not_lt_zero _ hfuel).elim
  | 0, fuel + 1, .branch .., _, _, hp, _ => (hp.reached hb hroot hpos).shape.elim
  | _ + 1, fuel + 1, .leaf _, _, _, hp, _ => (hp.reached hb hroot hpos).shape.elim
  | 0, fuel + 1, .leaf items, stack, pre, hp, _ => by
    obtain ⟨xs, x, rfl⟩ := (List.eq_nil_or_concat' items).resolve_left
      (List.ne_nil_of_length_pos (hp.reached hb hroot hpos).pos)
    have hindex : ((xs ++ [x]).length : Int) - 1 = xs.length := by simp
    refine ⟨pre ++ xs, x, _, (List.append_assoc ..).symm, ?_, .leaf hp⟩
    rw [Iter.pushLast, hindex, push_reached hb hroot hpos ht hp]
  | h + 1, fuel + 1, .branch items children, stack, pre, hp, hfuel => by
    have hn := (hp.reached hb hroot hpos).shape
    rw [← List.append_nil items] at hn hp
    obtain ⟨cs, c, ds, rfl, hcs, hds⟩ := hn.place
    obtain rfl := List.eq_nil_of_length_eq_zero hds
    have hp' := Path.down hp hcs hds
    rw [List.append_nil, behind, back_nil, List.nil_append] at hp'
    obtain ⟨rest, x, stack', hlist, hpush, hat⟩ := pushLast_at hp' (Nat.lt_of_succ_lt_succ hfuel)
    have hfocus := Node.toList_focus (c := c) hcs hds
    rw [List.append_nil, behind, back_nil, List.append_nil] at hfocus
    rw [List.append_nil] at hp
    refine ⟨rest, x, stack', ?_, ?_, hat⟩
    · rw [← hlist, hfocus, List.append_assoc]
    · rw [Iter.pushLast, push_reached hb hroot hpos ht hp, Option.bind_eq_bind, Option.bind_some, get_place hcs]
      exact hpush

end Ways

theorem popNext_at (hp : Path root top h stack pre node post) : post = [] ∧ Iter.popNext stack = [] ∨
    ∃ x rest, post = x :: rest ∧ At root top (Iter.popNext stack) (pre ++ node.toList) x rest := by
  induction hp with
  | root => exact .inl ⟨rfl, rfl⟩
  | @down h stack pre post xs ys cs ds c hp hcs hds ih =>
    cases ys with
    | nil =>
      have hindex : ¬(xs.length : Int) < (Node.branch (xs ++ []) (cs ++ c :: ds)).nitems := by
        simp [Node.nitems, Node.items]
      obtain rfl := List.eq_nil_of_length_eq_zero hds
      have hfocus := Node.toList_focus (c := c) hcs hds
      rw [hfocus, behind, back_nil, List.append_nil, ← List.append_assoc] at ih
      rwa [Iter.popNext, if_neg hindex, behind, back_nil, List.nil_append]
    | cons y ys =>
      have hindex : (xs.length : Int) < (Node.branch (xs ++ y :: ys) (cs ++ c :: ds)).nitems := by
        simp only [Node.nitems, Node.items, List.length_append, List.length_cons]
        omega
      obtain ⟨d, ds, rfl⟩ := List.exists_cons_of_length_eq_add_one hds
      refine .inr ⟨y, d.toList ++ (behind ys ds ++ post), ?_, ?_⟩
      · simp [behind, back]
      · rw [Iter.popNext, if_pos hindex, List.append_assoc]
        exact .branch hp hcs (Nat.succ.inj hds)

theorem popPrev_at (hp : Path root top h stack pre node post) : pre = [] ∧ Iter.popPrev stack = [] ∨
    ∃ rest x, pre = rest ++ [x] ∧ At root top (Iter.popPrev stack) rest x (node.toList ++ post) := by
  induction hp with
  | root => exact .inl ⟨rfl, rfl⟩
  | @down h stack pre post xs ys cs ds c hp hcs hds ih =>
    rcases List.eq_nil_or_concat' xs with rfl | ⟨xs, x, rfl⟩
    · obtain rfl := List.eq_nil_of_length_eq_zero hcs
      have hindex : ¬(([] : List α).length : Int) - 1 > -1 := by simp
      have hfocus := Node.toList_focus (c := c) hcs hds
      have hnil : before ([] : List α) [] = [] := rfl
      rw [hfocus, hnil, List.nil_append, List.append_assoc] at ih
      rwa [Iter.popPrev, if_neg hindex, hnil, List.append_nil]
    · obtain ⟨cs, d, rfl⟩ : ∃ cs' d, cs = cs' ++ [d] := (List.eq_nil_or_concat' cs).resolve_left (by
        rintro rfl
        simp at hcs)
      have hcs' : cs.length = xs.length := by simpa using hcs
      have hindex : ((xs ++ [x]).length : Int) - 1 = xs.length := by simp
      have hpos : (xs.length : Int) > -1 := by omega
      have hback : before (xs ++ [x]) (cs ++ [d]) = before xs cs ++ (d.toList ++ [x]) := by
        rw [before, before, List.map_append, List.map_singleton, front_concat (by rw [List.length_map, hcs'])]
      refine .inr ⟨pre ++ (before xs cs ++ d.toList), x, ?_, ?_⟩
      · simp [hback]
      · rw [Iter.popPrev, hindex, if_pos hpos]
        rw [List.append_assoc xs, List.append_assoc cs] at hp ⊢
        exact .branch hp hcs' hds

/-! #### Moves -/

/-- A move that comes from the item behind which `pre` ends: it goes on the first item of `post`, or off. -/
def Lands (root : Node α) (top : Nat) (item : Option α) (pre post : List α) (r : Option (Iter α × Bool)) : Prop :=
  post = [] ∧ r = some (⟨item, true, []⟩, false) ∨
    ∃ x rest stack, post = x :: rest ∧ r = some (⟨some x, true, stack⟩, true) ∧ At root top stack pre x rest

/-- A move back: it goes on the last item of `pre`, or off. -/
def LandsBack (root : Node α) (top : Nat) (item : Option α) (pre post : List α) (r : Option (Iter α × Bool)) : Prop :=
  pre = [] ∧ r = some (⟨item, true, []⟩, false) ∨
    ∃ rest x stack, pre = rest ++ [x] ∧ r = some (⟨some x, true, stack⟩, true) ∧ At root top stack rest x post

theorem copyItem_at (ha : At root top stack pre x post) : Iter.copyItem stack = some ⟨some x, true, stack⟩ := by
  cases ha <;> simp [Iter.copyItem, Node.items]

theorem settle_at (ha : At root top stack pre x post) (it : Iter α) :
    Iter.settle it stack = some (⟨some x, true, stack⟩, true) := by
  have hcopy := copyItem_at ha
  cases ha <;> simp only [Iter.settle, hcopy, Option.bind_eq_bind, Option.bind_some]

theorem Lands.pop (hp : Path root top h stack pre node post) :
    Lands root top it.item (pre ++ node.toList) post (Iter.settle it (Iter.popNext stack)) := by
  rcases popNext_at hp with ⟨hpost, hnil⟩ | ⟨x, rest, hpost, hat⟩
  · exact .inl ⟨hpost, by rw [hnil]; rfl⟩
  · exact .inr ⟨x, rest, _, hpost, settle_at hat it, hat⟩

theorem LandsBack.pop (hp : Path root top h stack pre node post) :
    LandsBack root top it.item pre (node.toList ++ post) (Iter.settle it (Iter.popPrev stack)) := by
  rcases popPrev_at hp with ⟨hpre, hnil⟩ | ⟨rest, x, hpre, hat⟩
  · exact .inl ⟨hpre, by rw [hnil]; rfl⟩
  · exact .inr ⟨rest, x, _, hpre, settle_at hat it, hat⟩

/-- In a leaf, behind the items `xs`. -/
theorem Lands.leaf (hp : Path root top 0 stack pre (.leaf (xs ++ ys)) post) (t : Btree α) (item : Option α)
    {index : Int} (hindex : index + 1 = xs.length) : Lands root top item (pre ++ xs) (ys ++ post)
      (Iter.advance t ⟨item, true, (.leaf (xs ++ ys), index) :: stack⟩) := by
  simp only [Iter.advance, hindex]
  cases ys with
  | nil =>
    rw [if_pos (by simp)]
    have hpop := @Lands.pop _ _ _ _ _ _ _ _ ⟨item, true, (.leaf (xs ++ []), index) :: stack⟩ hp
    rwa [Node.toList_leaf, List.append_nil xs] at hpop
  | cons y ys =>
    have hlen : ¬(xs.length : Int) = (xs ++ y :: ys).length := by
      rw [List.length_append, List.length_cons]
      omega
    rw [if_neg hlen]
    exact .inr ⟨y, ys ++ post, _, rfl, settle_at (.leaf hp) _, .leaf hp⟩

section Moves
variable (hb : b.Ok) (hroot : root.Shape b top) (hpos : 0 < root.nitems) (ht : t.height = top + 1)
include hb hroot hpos ht

theorem At.next (ha : At root top stack pre x post) (item : Option α) :
    Lands root top item (pre ++ [x]) post (Iter.advance t ⟨item, true, stack⟩) := by
  cases ha with
  | @leaf stack pre post xs ys _ hp =>
    have hindex : (xs.length : Int) + 1 = (xs ++ [x]).length := by simp
    rw [List.append_assoc]
    rw [List.append_cons xs x ys] at hp ⊢
    exact Lands.leaf hp t item hindex
  | @branch h stack pre post xs ys _ cs ds c d hp hcs hds =>
    have hlen : (cs ++ [c]).length = (xs ++ [x]).length := by simp [hcs]
    have hindex : ((xs.length : Int) + 1) = (xs ++ [x]).length := by simp
    rw [List.append_cons xs, List.append_cons cs] at hp ⊢
    have hp' := Path.down hp hlen hds
    have hh : h < t.height := by
      have := (hp'.reached hb hroot hpos).height
      omega
    obtain ⟨y, rest, stack', hlist, hpush, hat⟩ := pushFirst_at hb hroot hpos ht hp' hh
    have hback : before (xs ++ [x]) (cs ++ [c]) = before xs cs ++ (c.toList ++ [x]) := by
      rw [before, before, List.map_append, List.map_singleton, front_concat (by rw [List.length_map, hcs])]
    rw [hback] at hat
    refine .inr ⟨y, rest, stack', hlist, ?_, by simpa using hat⟩
    simp only [Iter.advance, hindex, Int.toNat_natCast, get_place hlen, Option.bind_eq_bind, Option.bind_some, hpush,
      settle_at hat]

theorem At.prev (ha : At root top stack pre x post) (item : Option α) :
    LandsBack root top item pre (x :: post) (Iter.prev t ⟨item, true, stack⟩) := by
  cases ha with
  | @leaf stack pre post xs ys _ hp =>
    rcases List.eq_nil_or_concat' xs with rfl | ⟨xs, y, rfl⟩
    · rw [List.append_nil]
      exact @LandsBack.pop _ _ _ _ _ _ _ _ ⟨item, true, _⟩ hp
    · have hindex : ((xs ++ [y]).length : Int) - 1 = xs.length := by simp
      have hne : ¬(xs.length : Int) = -1 := by omega
      rw [List.append_assoc xs] at hp ⊢
      refine .inr ⟨pre ++ xs, y, _, (List.append_assoc ..).symm, ?_, .leaf hp⟩
      simp only [Iter.prev, if_true, hindex, if_neg hne]
      exact settle_at (.leaf hp) _
  | @branch h stack pre post xs ys _ cs ds c d hp hcs hds =>
    have hds' : (d :: ds).length = (x :: ys).length := congrArg Nat.succ hds
    have hp' := Path.down hp hcs hds'
    have hh : h < t.height := by
      have := (hp'.reached hb hroot hpos).height
      omega
    obtain ⟨rest, y, stack', hlist, hpush, hat⟩ := pushLast_at hb hroot hpos ht hp' hh
    refine .inr ⟨rest, y, stack', by rw [← hlist, List.append_assoc], ?_, by simpa [behind, back] using hat⟩
    simp only [Iter.prev, if_true, Int.toNat_natCast, get_place hcs, Option.bind_eq_bind, Option.bind_some, hpush,
      settle_at hat]

/-- A seek goes on the first item that is not less than the key. -/
theorem seekLoop_lands [TransCmp b.compare] (key : α) (it : Iter α) : ∀ {h fuel : Nat} {node : Node α}
    {stack : List (Node α × Int)} {pre post : List α}, Path root top h stack pre node post →
    Sorted b.compare node.toList → h < fuel → Lands root top it.item (pre ++ below b.compare key node.toList)
      (atLeast b.compare key node.toList ++ post) (Iter.seekLoop b t key it fuel node stack)
  | _, 0, _, _, _, _, _, _, hfuel => (Nat.not_lt_zero _ hfuel).elim
  | 0, fuel + 1, .branch .., _, _, _, hp, _, _ => (hp.reached hb hroot hpos).shape.elim
  | _ + 1, fuel + 1, .leaf _, _, _, _, hp, _, _ => (hp.reached hb hroot hpos).shape.elim
  | 0, fuel + 1, .leaf items, stack, pre, post, hp, hs, _ => by
    obtain ⟨i, found, hsplits⟩ := Sorted.splits hs key
    have hsearch := bsearch_splits hs hsplits
    rw [Node.toList_leaf] at hsearch hsplits ⊢
    simp only [Iter.seekLoop, hsearch, Option.bind_eq_bind, Option.bind_some]
    rcases hsplits.parts with ⟨xs, y, ys, rfl, rfl, rfl, hx, heq, hy⟩ | ⟨xs, ys, rfl, rfl, rfl, hx, hy⟩
    · rw [below_hit hx hy heq, atLeast_hit hx hy heq, if_pos rfl, push_reached hb hroot hpos ht hp]
      have hat := At.leaf hp
      refine .inr ⟨y, ys ++ post, _, rfl, ?_, hat⟩
      rw [Option.bind_some, copyItem_at hat, Option.bind_some]
    · rw [below_miss hx hy, atLeast_miss hx hy, if_neg Bool.false_ne_true, push_reached hb hroot hpos ht hp]
      exact Lands.leaf hp t it.item (by simp)
  | h + 1, fuel + 1, .branch items children, stack, pre, post, hp, hs, hfuel => by
    have hn := (hp.reached hb hroot hpos).shape
    obtain ⟨i, found, hsplits⟩ := (sorted_items hn hs).splits key
    have hsearch := bsearch_splits (sorted_items hn hs) hsplits
    rw [Node.items] at hsearch hsplits
    simp only [Iter.seekLoop, hsearch, Option.bind_eq_bind, Option.bind_some, push_reached hb hroot hpos ht hp]
    rcases hsplits.parts with ⟨xs, y, ys, rfl, rfl, rfl, hx, heq, hy⟩ | ⟨xs, ys, rfl, rfl, rfl, hx, hy⟩
    · obtain ⟨cs, c, ds, rfl, hcs, hds⟩ := hn.place
      obtain ⟨d, ds, rfl⟩ := List.exists_cons_of_length_eq_add_one hds
      have hlist := @Node.toList_item _ xs ys y cs ds c d hcs (Nat.succ.inj hds)
      rw [hlist, ← List.append_assoc] at hs ⊢
      have haround := hs.around (k := key)
      have hgt := haround.1 (by simp [heq])
      have hlt := haround.2 (by simp [heq])
      rw [below_hit hgt hlt heq, atLeast_hit hgt hlt heq, if_pos rfl]
      have hat := At.branch hp hcs (Nat.succ.inj hds)
      refine .inr ⟨y, _, _, ?_, ?_, hat⟩
      · simp
      · rw [copyItem_at hat, Option.bind_some]
    · obtain ⟨cs, c, ds, rfl, hcs, hds⟩ := hn.place
      have hgt := gt_before hcs hds hs hx
      have hlt := lt_behind hcs hds hs hy
      have hseek := seekLoop_lands key it (.down hp hcs hds) (sorted_child hcs hds hs) (Nat.lt_of_succ_lt_succ hfuel)
      rw [Node.toList_focus hcs hds, below_frame hgt hlt, atLeast_frame hgt hlt, List.append_assoc, ← List.append_assoc]
      simpa only [Bool.false_eq_true, if_false, get_place hcs, Option.bind_some] using hseek

end Moves

/-! #### Places in the list -/

/-- Where an iterator stands in a list: it has not been placed, it is on an item, or it has left the list. -/
inductive Place where
  | fresh
  | on (i : Nat)
  | off

namespace Place

def isOn : Place → Bool
  | on _ => true
  | _ => false

/-- The place of an index, in a list that may be too short for it. -/
def reach (n i : Nat) : Place := if i < n then on i else off

/-- The place that a call leads to. An iterator that has left the list must not be moved on. -/
def move (compare : α → α → Ordering) (l : List α) : Place → Iter.Move α → Option Place
  | _, .first => some (if l.length = 0 then fresh else on 0)
  | _, .last => some (if l.length = 0 then fresh else on (l.length - 1))
  | _, .seek key => some (if l.length = 0 then fresh else reach l.length (below compare key l).length)
  | fresh, .next => some (if l.length = 0 then fresh else on 0)
  | on i, .next => some (reach l.length (i + 1))
  | fresh, .prev => some fresh
  | on i, .prev => some (if i = 0 then off else on (i - 1))
  | off, .next | off, .prev => none

/-- The item that has been copied: the one at the place, or the one from before. -/
def item (l : List α) (old : Option α) : Place → Option α
  | on i => l[i]?
  | _ => old

/-- A call on an iterator, on the list alone. -/
def step (compare : α → α → Ordering) (l : List α) (s : Place × Option α) (move : Iter.Move α) :
    Option ((Place × Option α) × Bool × Option α) := do
  let place ← s.1.move compare l move
  some ((place, place.item l s.2), place.isOn, place.item l s.2)

end Place

/-- An iterator stands at a place of the list, and holds the item. -/
structure Tracks (root : Node α) (top : Nat) (it : Iter α) (s : Place × Option α) : Prop where
  item : it.item = s.2
  place : match s.1 with
    | .fresh => it.seeked = false
    | .on i => it.seeked = true ∧ ∃ pre x post, At root top it.stack pre x post ∧ pre.length = i
    | .off => it.seeked = true ∧ it.stack = []

/-- A call on an iterator led to this place. -/
def Leads (root : Node α) (top : Nat) (item : Option α) (r : Option (Iter α × Bool)) (place : Place) : Prop :=
  ∃ it, r = some (it, place.isOn) ∧ Tracks root top it (place, place.item root.toList item)

theorem Leads.matches {r : Option (Iter α × Bool)} {place : Place} {item : Option α} (h : Leads root top item r place) :
    Run.Matches (Tracks root top) (do let (it, ok) ← r; some (it, ok, it.item))
      (some ((place, place.item root.toList item), place.isOn, place.item root.toList item)) := by
  obtain ⟨it, rfl, htracks⟩ := h
  have hitem : it.item = place.item root.toList item := htracks.item
  refine .inr ⟨it, _, _, ?_, rfl, htracks⟩
  rw [← hitem]
  rfl

section Leads
variable (hb : b.Ok) (hroot : root.Shape b top) (hpos : 0 < root.nitems) {item : Option α} {r : Option (Iter α × Bool)}
include hb hroot hpos

theorem Leads.on (ha : At root top stack pre x post) :
    Leads root top item (some (⟨some x, true, stack⟩, true)) (.on pre.length) := by
  have hlist := ha.toList hb hroot hpos
  refine ⟨_, rfl, ?_, rfl, pre, x, post, ha, rfl⟩
  rw [Place.item, hlist]
  simp

theorem Lands.leads (h : Lands root top item pre post r) (hlist : root.toList = pre ++ post) :
    Leads root top item r (.reach root.toList.length pre.length) := by
  rcases h with ⟨rfl, rfl⟩ | ⟨x, rest, stack, rfl, rfl, hat⟩
  · rw [hlist, List.append_nil, Place.reach, if_neg (Nat.lt_irrefl _)]
    exact ⟨_, rfl, rfl, rfl, rfl⟩
  · have hlt : pre.length < root.toList.length := by simp [hlist]
    rw [Place.reach, if_pos hlt]
    exact Leads.on hb hroot hpos hat

theorem LandsBack.leads (h : LandsBack root top item pre post r) :
    Leads root top item r (if pre.length = 0 then .off else .on (pre.length - 1)) := by
  rcases h with ⟨rfl, rfl⟩ | ⟨rest, x, stack, rfl, rfl, hat⟩
  · exact ⟨_, rfl, rfl, rfl, rfl⟩
  · rw [if_neg (by simp), List.length_append, List.length_singleton, Nat.add_sub_cancel]
    exact Leads.on hb hroot hpos hat

variable (ht : t.height = top + 1) (htree : t.root = some root) (it : Iter α)
include ht htree

theorem first_leads : Leads root top it.item (it.first t) (.on 0) := by
  have hfuel : top < t.height := by omega
  obtain ⟨x, rest, stack, -, hpush, hat⟩ := pushFirst_at hb hroot hpos ht .root hfuel
  simp only [Iter.first, htree, hpush, Option.bind_eq_bind, Option.bind_some, copyItem_at hat]
  exact Leads.on hb hroot hpos hat

theorem last_leads : Leads root top it.item (it.last t) (.on (root.toList.length - 1)) := by
  have hfuel : top < t.height := by omega
  obtain ⟨rest, x, stack, hlist, hpush, hat⟩ := pushLast_at hb hroot hpos ht .root hfuel
  rw [List.nil_append] at hlist
  simp only [Iter.last, htree, hpush, Option.bind_eq_bind, Option.bind_some, copyItem_at hat, hlist, List.length_append,
    List.length_singleton, Nat.add_sub_cancel]
  exact Leads.on hb hroot hpos hat

theorem seek_leads [TransCmp b.compare] (hs : Sorted b.compare root.toList) (key : α) :
    Leads root top it.item (it.seek b t key) (.reach root.toList.length (below b.compare key root.toList).length) := by
  have hfuel : top < t.height := by omega
  have hseek := seekLoop_lands hb hroot hpos ht key it .root hs hfuel
  rw [List.nil_append, List.append_nil] at hseek
  simp only [Iter.seek, htree]
  exact hseek.leads hb hroot hpos hs.below_atLeast.symm

/-- One call, on an iterator that stands at a place. -/
theorem iterStep_matches [TransCmp b.compare] (hs : Sorted b.compare root.toList) {it : Iter α} {s : Place × Option α}
    (h : Tracks root top it s) (move : Iter.Move α) :
    Run.Matches (Tracks root top) (Iter.step b t it move) (Place.step b.compare root.toList s move) := by
  have hne : root.toList.length ≠ 0 := (List.length_pos_of_ne_nil (toList_ne_nil hroot hpos)).ne'
  obtain ⟨place, item⟩ := s
  obtain ⟨rfl, hplace⟩ := h
  cases move with
  | first =>
    simp only [Place.step, Place.move, if_neg hne]
    exact (first_leads hb hroot hpos ht htree it).matches
  | last =>
    simp only [Place.step, Place.move, if_neg hne]
    exact (last_leads hb hroot hpos ht htree it).matches
  | seek key =>
    simp only [Place.step, Place.move, if_neg hne]
    exact (seek_leads hb hroot hpos ht htree it hs key).matches
  | next =>
    cases place with
    | fresh =>
      have hseeked : it.seeked = false := hplace
      simp only [Place.step, Place.move, if_neg hne, Iter.step, Iter.next, hseeked, Bool.false_eq_true, if_false]
      exact (first_leads hb hroot hpos ht htree it).matches
    | on i =>
      obtain ⟨old, seeked, stack⟩ := it
      obtain ⟨rfl, pre, x, post, hat, rfl⟩ := hplace
      have hlist := hat.toList hb hroot hpos
      have hnext := (hat.next hb hroot hpos ht old).leads hb hroot hpos (by rw [hlist, List.append_assoc]; rfl)
      rw [List.length_append, List.length_singleton] at hnext
      exact hnext.matches
    | off =>
      obtain ⟨old, seeked, stack⟩ := it
      obtain ⟨rfl, rfl⟩ := hplace
      exact .inl ⟨rfl, rfl⟩
  | prev =>
    cases place with
    | fresh =>
      obtain ⟨old, seeked, stack⟩ := it
      obtain rfl : seeked = false := hplace
      exact .inr ⟨_, _, _, rfl, rfl, rfl, rfl⟩
    | on i =>
      obtain ⟨old, seeked, stack⟩ := it
      obtain ⟨rfl, pre, x, post, hat, rfl⟩ := hplace
      exact ((hat.prev hb hroot hpos ht old).leads hb hroot hpos).matches
    | off =>
      obtain ⟨old, seeked, stack⟩ := it
      obtain ⟨rfl, rfl⟩ := hplace
      exact .inl ⟨rfl, rfl⟩

end Leads

end Iterators

/-- On an empty tree an iterator is never placed. -/
theorem iterStep_empty (compare : α → α → Ordering) {it : Iter α} {s : Place × Option α} (hroot : t.root = none)
    (h : it.item = s.2 ∧ it.seeked = false ∧ s.1 = .fresh) (move : Iter.Move α) :
    Run.Matches (fun it s => it.item = s.2 ∧ it.seeked = false ∧ s.1 = .fresh) (Iter.step b t it move)
      (Place.step compare [] s move) := by
  obtain ⟨place, item⟩ := s
  obtain ⟨old, seeked, stack⟩ := it
  obtain ⟨rfl, rfl, rfl⟩ := h
  obtain ⟨stack', hstep⟩ : ∃ stack', Iter.step b t ⟨old, false, stack⟩ move =
      some (⟨old, false, stack'⟩, false, old) := by
    cases move with
    | prev => exact ⟨stack, rfl⟩
    | _ => exact ⟨[], by simp [Iter.step, Iter.first, Iter.last, Iter.next, Iter.seek, hroot]⟩
  refine .inr ⟨_, (.fresh, old), _, hstep, ?_, rfl, rfl, rfl⟩
  cases move <;> rfl

/-- The calls on an iterator of a valid tree answer as those on a place in the list, and fault where these do. -/
theorem iter_valid [TransCmp b.compare] (hb : b.Ok) (ht : Valid b t) (moves : List (Iter.Move α)) :
    (Run.runs (Iter.step b t) Iter.new moves).map Prod.snd =
      (Run.runs (Place.step b.compare t.toList) (.fresh, none) moves).map Prod.snd := by
  rcases ht.cases with ht | ⟨root, h, ht, hshape, hpos, hs⟩
  · rw [ht]
    exact Run.runs_matches (fun _ _ move h => iterStep_empty b.compare rfl h move) moves ⟨rfl, rfl, rfl⟩
  · rw [ht]
    exact Run.runs_matches (fun _ _ move h => iterStep_matches hb hshape hpos rfl rfl hs h move) moves ⟨rfl, rfl⟩

/-- An iterator on a tree, after any run of calls, goes about in the sorted list that the answers of that run stand
    for, whatever is called on it: it returns what the place in the list says and has a copy of the item there. Calls
    of `btree_iter_next` and `btree_iter_prev` on one that has left the list, and no others, are faults. -/
theorem runs_iter (compare : α → α → Ordering) [TransCmp compare] (maxItems : Nat) (calls : List (Call α)) :
    ∃ t rets s, Run.runs (step ⟨compare, normalizeMaxItems maxItems⟩) new calls = some (t, rets) ∧
      Run.Allowed (Serves compare) ([], false) calls rets s ∧ ∀ moves : List (Iter.Move α),
        (Run.runs (Iter.step ⟨compare, normalizeMaxItems maxItems⟩ t) Iter.new moves).map Prod.snd =
          (Run.runs (Place.step compare s.1) (.fresh, none) moves).map Prod.snd := by
  have hb := normalizeMaxItems_ok compare maxItems
  obtain ⟨t, rets, s, hrun, hallowed, ht, rfl⟩ := runs_stands hb calls
  exact ⟨t, rets, _, hrun, hallowed, iter_valid hb ht⟩

theorem runs_iter_growAndShrink : ∃ t rets s,
    Run.runs (step ⟨compare, normalizeMaxItems 4⟩) new growAndShrink = some (t, rets) ∧
    Run.Allowed (Serves compare) ([], false) growAndShrink rets s ∧ ∀ moves : List (Iter.Move Nat),
      (Run.runs (Iter.step ⟨compare, normalizeMaxItems 4⟩ t) Iter.new moves).map Prod.snd =
        (Run.runs (Place.step compare s.1) (.fresh, none) moves).map Prod.snd :=
  runs_iter compare 4 growAndShrink

/-- Past the last item and back. -/
example : (Run.runs (Place.step compare [3, 7]) (.fresh, none) [.last, .prev, .next, .next, .first]).map Prod.snd =
    some [(true, some 7), (true, some 3), (true, some 7), (false, some 7), (true, some 3)] := by decide

end KvStore.Btree
