import KvStore.Theorems.RbtreeRep

/-! The walks down the tree: the search of a key, the descent of an insertion, the count, and the successor
    of a node with two children. -/

namespace KvStore
open RedBlack

section Walks
variable {T : Rbtree} {t : RBTree Cell} {ctx : Ctx Cell} {k : CString} {fuel : Nat}

/-- The induction for a recursion down a tree, with fuel for more calls than the tree has nodes. -/
theorem Rep.downward {P : Nat → Ctx Cell → RBTree Cell → Prop} (hnil : ∀ fuel ctx, P (fuel + 1) ctx .nil)
    (hnode : ∀ fuel ctx c l e r, 0 < fuel → Rep T (plug ctx (.node c l e r)) → P fuel (⟨.left, c, e, r⟩ :: ctx) l →
      P fuel (⟨.right, c, e, l⟩ :: ctx) r → P (fuel + 1) ctx (.node c l e r))
    (h : Rep T (plug ctx t)) (hfuel : t.toList.length < fuel) : P fuel ctx t := by
  induction t generalizing ctx fuel with
  | nil =>
    obtain ⟨fuel, rfl⟩ := Nat.exists_eq_succ_of_ne_zero (Nat.ne_zero_of_lt hfuel)
    exact hnil fuel ctx
  | node c l e r ihl ihr =>
    obtain ⟨fuel, rfl⟩ := Nat.exists_eq_succ_of_ne_zero (Nat.ne_zero_of_lt hfuel)
    simp only [RBTree.toList, List.length_append, List.length_cons] at hfuel
    have hL : Rep T (plug (⟨.left, c, e, r⟩ :: ctx) l) := h
    have hR : Rep T (plug (⟨.right, c, e, l⟩ :: ctx) r) := h
    exact hnode fuel ctx c l e r (by omega) h (ihl hL (by omega)) (ihr hR (by omega))

theorem Rep.searchLoop (h : Rep T (plug ctx t)) (hfuel : t.toList.length < fuel) :
    rbtreeSearchLoop T k fuel (ptrOf T.nil t) = some (ptrOf T.nil (descend Cell.key k ctx t).2) := by
  refine Rep.downward (P := fun fuel ctx t => rbtreeSearchLoop T k fuel (ptrOf T.nil t) =
    some (ptrOf T.nil (descend Cell.key k ctx t).2)) (fun fuel ctx => ?_) (fun fuel ctx c l e r _ h hl hr => ?_) h hfuel
  · simp [rbtreeSearchLoop, descend]
  · have F := h.fields (s := .left)
    simp only [rbtreeSearchLoop, descend, Option.bind_eq_bind, strcmp_neg, gt_iff_lt, strcmp_pos, ptrOf_node]
    rw [if_pos (h.live_mk (s := .left)).1, F.key, Option.bind_some, F.left, Option.bind_some, F.right, Option.bind_some]
    split
    · exact hl
    split
    · exact hr
    · rfl

/-- `rbtree_search` finds the node with the key, or the sentinel. -/
theorem Rep.search (h : Rep T (plug [] t)) : rbtreeSearch T k = some (ptrOf T.nil (descend Cell.key k [] t).2) := by
  rw [rbtreeSearch, h.linked.root]
  exact h.searchLoop (Nat.lt_succ_of_lt h.length_lt)

/-- The descent of an insertion ends under the node where the key belongs, or at the key. -/
theorem Rep.insertLoop (h : Rep T (plug ctx t)) (hfuel : t.toList.length < fuel) :
    rbtreeInsertLoop T k fuel (ptrOf T.nil t) (ctxPtr T.nil ctx) =
      match descend Cell.key k ctx t with
      | (ctx', .nil) => some (some (ctxPtr T.nil ctx'))
      | _ => some none := by
  refine Rep.downward (P := fun fuel ctx t => rbtreeInsertLoop T k fuel (ptrOf T.nil t) (ctxPtr T.nil ctx) =
      match descend Cell.key k ctx t with
      | (ctx', .nil) => some (some (ctxPtr T.nil ctx'))
      | _ => some none) (fun fuel ctx => ?_) (fun fuel ctx c l e r _ h hl hr => ?_) h hfuel
  · simp [rbtreeInsertLoop, descend]
  · have F := h.fields (s := .left)
    simp only [rbtreeInsertLoop, descend, Option.bind_eq_bind, strcmp_neg, gt_iff_lt, strcmp_pos, ptrOf_node]
    rw [if_pos (h.live_mk (s := .left)).1, F.key, Option.bind_some, F.left, Option.bind_some, F.right, Option.bind_some]
    split
    · exact hl
    split
    · exact hr
    · rfl

/-- `count_nodes_recursive` -/
theorem Rep.countNodes (h : Rep T (plug ctx t)) (hfuel : t.toList.length < fuel) :
    countNodesRecursive T fuel (ptrOf T.nil t) = some (t.toList.length : Int) := by
  refine Rep.downward (P := fun fuel _ t => countNodesRecursive T fuel (ptrOf T.nil t) = some (t.toList.length : Int))
    (fun fuel ctx => ?_) (fun fuel ctx c l e r _ h hl hr => ?_) h hfuel
  · simp [countNodesRecursive, RBTree.toList]
  · have F := h.fields (s := .left)
    simp only [RBTree.toList, List.length_append, List.length_cons]
    simp only [countNodesRecursive, Option.bind_eq_bind, ptrOf_node, (h.live_mk (s := .left)).1, ↓reduceIte,
      F.left, F.right, Option.bind_some, Side.pick, hl, hr, Option.some.injEq]
    omega

/-- `kvs_rbtree_count` -/
theorem Rep.count (h : Rep T (plug [] t)) : kvsRbtreeCount T = some (t.toList.length : Int) := by
  rw [kvsRbtreeCount, h.linked.root]
  exact h.countNodes (Nat.lt_succ_of_lt h.length_lt)

end Walks

end KvStore
