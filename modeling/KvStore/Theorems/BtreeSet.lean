import KvStore.Theorems.BtreeNode

/-! Setting an item in a B-tree: full nodes on the way are split, from the lowest up, and the search starts again in the
    node that got the median. What happens does not depend on the hint. -/

namespace KvStore.Btree
open Ordered Weave Std

variable {α : Type} {b : Settings α} {malloc : Nat → Bool} {h f m m' m'' : Nat} {item x : α} {items xs ys : List α}
  {children cs ds : List (Node α)} {node node' c c' l r : Node α} {res : MutResult α}

/-! ### Splitting a node -/

/-- A full node falls into two children and a median. -/
theorem nodeSplit_full (hb : b.Ok) (hn : node.Shape b h) (hfull : node.nitems = b.maxItems) :
    ∃ l x r, nodeSplit b node = some (l, x, r) ∧ node.toList = l.toList ++ x :: r.toList ∧
      (l.Child b h ∧ l.nitems < b.maxItems) ∧ r.Child b h ∧ r.nitems < b.maxItems := by
  have hmax := hb.maxItems
  have hmid : b.maxItems / 2 = b.minItems := rfl
  have hlt : b.minItems < node.items.length := by
    rw [Node.nitems] at hfull
    omega
  obtain ⟨xs, x, ys, hitems, hxs, hys⟩ : ∃ xs x ys, node.items = xs ++ x :: ys ∧ xs.length = b.minItems ∧
      ys.length = b.minItems := by
    refine ⟨node.items.take b.minItems, node.items[b.minItems], node.items.drop (b.minItems + 1), ?_,
      List.length_take_of_le hlt.le, ?_⟩
    · rw [← List.drop_eq_getElem_cons hlt, List.take_append_drop]
    · rw [Node.nitems] at hfull
      rw [List.length_drop]
      omega
  have hdrop : (xs ++ x :: ys).drop (b.minItems + 1) = ys := by
    rw [← hxs, List.drop_append]
    simp
  cases node with
  | leaf items =>
    obtain rfl : items = xs ++ x :: ys := hitems
    refine ⟨.leaf xs, x, .leaf ys, ?_, rfl, ?_⟩
    · simp only [nodeSplit, hmid, Node.items, get_place hxs, Option.bind_eq_bind, Option.bind_some,
        List.take_left' hxs, hdrop]
    · obtain rfl := (Node.shape_leaf.mp hn).1
      simp only [Node.Child, Node.shape_leaf, Node.nitems, Node.items, true_and]
      omega
  | branch items children =>
    obtain rfl : items = xs ++ x :: ys := hitems
    cases h with
    | zero => exact hn.elim
    | succ h =>
      obtain ⟨-, hlen, hchildren⟩ := hn
      rw [List.length_append, List.length_cons] at hlen
      have htake : (children.take (b.minItems + 1)).length = b.minItems + 1 := List.length_take_of_le (by omega)
      have hcut : (children.drop (b.minItems + 1)).length = ys.length + 1 := by
        rw [List.length_drop]
        omega
      refine ⟨.branch xs (children.take (b.minItems + 1)), x, .branch ys (children.drop (b.minItems + 1)), ?_, ?_, ?_⟩
      · simp only [nodeSplit, hmid, Node.items, get_place hxs, Option.bind_eq_bind, Option.bind_some,
          List.take_left' hxs, hdrop]
      · have hmap : children.map Node.toList = (children.take (b.minItems + 1)).map Node.toList ++
            (children.drop (b.minItems + 1)).map Node.toList := by rw [← List.map_append, List.take_append_drop]
        rw [Node.toList_branch, hmap, weave_cut (by rw [List.length_map, htake, hxs]), Node.toList_branch,
          Node.toList_branch]
      · have hsub : ∀ d, d ∈ children.take (b.minItems + 1) ∨ d ∈ children.drop (b.minItems + 1) → d.Child b h :=
          fun d hd => hchildren d (hd.elim List.mem_of_mem_take List.mem_of_mem_drop)
        refine ⟨⟨⟨⟨by omega, by rw [htake, hxs], fun d hd => hsub d (.inl hd)⟩, hxs.ge⟩, ?_⟩,
          ⟨⟨by omega, hcut, fun d hd => hsub d (.inr hd)⟩, hys.ge⟩, ?_⟩
        · exact lt_of_eq_of_lt hxs (by omega)
        · exact lt_of_eq_of_lt hys (by omega)

/-! ### What a call does -/

variable (b malloc) in
/-- `btree_node_set` gives this result, this node and this count of allocations, with any hint. -/
def SetsTo (f : Nat) (node : Node α) (item : α) (m : Nat) (res : MutResult α) (node' : Node α) (m' : Nat) : Prop :=
  ∀ hint depth, ∃ hint', nodeSet b malloc f node item depth ⟨hint, m⟩ = some (res, node', ⟨hint', m'⟩)

theorem SetsTo.leaf_hit {y : α} (hf : Finds b.compare (xs ++ y :: ys) item xs.length true) :
    SetsTo b malloc (f + 1) (.leaf (xs ++ y :: ys)) item m (.replaced y) (.leaf (xs ++ item :: ys)) m := by
  intro hint depth
  obtain ⟨hint', hs⟩ := hf hint depth
  exact ⟨hint', by simp [nodeSet, hs]⟩

theorem SetsTo.branch_hit {y : α} (hf : Finds b.compare (xs ++ y :: ys) item xs.length true) :
    SetsTo b malloc (f + 1) (.branch (xs ++ y :: ys) children) item m (.replaced y)
      (.branch (xs ++ item :: ys) children) m := by
  intro hint depth
  obtain ⟨hint', hs⟩ := hf hint depth
  exact ⟨hint', by simp [nodeSet, hs]⟩

theorem insertItem_place (hroom : (xs ++ ys).length < b.maxItems) :
    insertItem b (xs ++ ys) xs.length item = some (xs ++ item :: ys) := by
  have hle : xs.length ≤ (xs ++ ys).length := by simp
  rw [insertItem, if_pos ⟨hroom, hle⟩, insert_place rfl]

section Miss
variable (hf : Finds b.compare (xs ++ ys) item xs.length false)
include hf

theorem SetsTo.leaf_full (hfull : (xs ++ ys).length = b.maxItems) :
    SetsTo b malloc (f + 1) (.leaf (xs ++ ys)) item m .mustSplit (.leaf (xs ++ ys)) m := by
  intro hint depth
  obtain ⟨hint', hs⟩ := hf hint depth
  exact ⟨hint', by simp only [nodeSet, hs, Option.bind_eq_bind, Option.bind_some, hfull, if_true]; rfl⟩

theorem SetsTo.leaf_room (hroom : (xs ++ ys).length < b.maxItems) :
    SetsTo b malloc (f + 1) (.leaf (xs ++ ys)) item m .inserted (.leaf (xs ++ item :: ys)) m := by
  intro hint depth
  obtain ⟨hint', hs⟩ := hf hint depth
  exact ⟨hint', by simp only [nodeSet, hs, Option.bind_eq_bind, Option.bind_some, hroom.ne, if_false,
    insertItem_place hroom]; rfl⟩

variable (hcs : cs.length = xs.length)
include hcs

/-- The result of the child goes up. -/
theorem SetsTo.pass (hc : SetsTo b malloc f c item m res c' m') (hres : res ≠ .mustSplit) :
    SetsTo b malloc (f + 1) (.branch (xs ++ ys) (cs ++ c :: ds)) item m res
      (.branch (xs ++ ys) (cs ++ c' :: ds)) m' := by
  intro hint depth
  obtain ⟨hint₁, hs⟩ := hf hint depth
  obtain ⟨hint₂, hset⟩ := hc hint₁ (depth + 1)
  refine ⟨hint₂, ?_⟩
  simp only [nodeSet, hs, Option.bind_eq_bind, Option.bind_some, get_place hcs, hset, set_place hcs]
  cases res with
  | mustSplit => exact absurd rfl hres
  | _ => rfl

variable (hc : SetsTo b malloc f c item m .mustSplit c' m')
include hc

theorem SetsTo.full (hfull : (xs ++ ys).length = b.maxItems) :
    SetsTo b malloc (f + 1) (.branch (xs ++ ys) (cs ++ c :: ds)) item m .mustSplit
      (.branch (xs ++ ys) (cs ++ c' :: ds)) m' := by
  intro hint depth
  obtain ⟨hint₁, hs⟩ := hf hint depth
  obtain ⟨hint₂, hset⟩ := hc hint₁ (depth + 1)
  refine ⟨hint₂, ?_⟩
  simp only [nodeSet, hs, Option.bind_eq_bind, Option.bind_some, get_place hcs, hset, set_place hcs, hfull, if_true]
  rfl

theorem SetsTo.noMem (hroom : (xs ++ ys).length < b.maxItems) (hm : malloc m' = false) :
    SetsTo b malloc (f + 1) (.branch (xs ++ ys) (cs ++ c :: ds)) item m .noMem
      (.branch (xs ++ ys) (cs ++ c' :: ds)) (m' + 1) := by
  intro hint depth
  obtain ⟨hint₁, hs⟩ := hf hint depth
  obtain ⟨hint₂, hset⟩ := hc hint₁ (depth + 1)
  refine ⟨hint₂, ?_⟩
  simp only [nodeSet, hs, Option.bind_eq_bind, Option.bind_some, get_place hcs, hset, set_place hcs, hroom.ne, if_false,
    hm, if_true]
  rfl

/-- The child is split, and the search starts again. -/
theorem SetsTo.again (hroom : (xs ++ ys).length < b.maxItems) (hm : malloc m' = true)
    (hsplit : nodeSplit b c' = some (l, x, r))
    (hagain : SetsTo b malloc f (.branch (xs ++ x :: ys) (cs ++ l :: r :: ds)) item (m' + 1) res node' m'') :
    SetsTo b malloc (f + 1) (.branch (xs ++ ys) (cs ++ c :: ds)) item m res node' m'' := by
  intro hint depth
  obtain ⟨hint₁, hs⟩ := hf hint depth
  obtain ⟨hint₂, hset⟩ := hc hint₁ (depth + 1)
  obtain ⟨hint₃, hlast⟩ := hagain hint₂ depth
  refine ⟨hint₃, ?_⟩
  have hinsert : insertItem b (xs ++ ys) xs.length x = some (xs ++ x :: ys) := insertItem_place hroom
  simp only [nodeSet, hs, Option.bind_eq_bind, Option.bind_some, get_place hcs, hset, set_place hcs, hroom.ne, if_false,
    hm, hsplit, hinsert, insert_next hcs, hlast]
  rfl

end Miss

/-! ### Setting an item below a node -/

variable (b malloc) in
/-- What `btree_node_set` makes of a node. -/
def SetPost (h : Nat) (node : Node α) (item : α) (res : MutResult α) (node' : Node α) : Prop :=
  match res with
  | .inserted => lookup b.compare item node.toList = none ∧ node'.toList = upsert b.compare item node.toList ∧
      node'.Shape b h ∧ node.nitems ≤ node'.nitems
  | .replaced prev => lookup b.compare item node.toList = some prev ∧
      node'.toList = upsert b.compare item node.toList ∧ node'.Shape b h ∧ node.nitems ≤ node'.nitems
  | .mustSplit => lookup b.compare item node.toList = none ∧ node' = node ∧ node.nitems = b.maxItems
  | .noMem => (∃ n, malloc n = false) ∧ node'.toList = node.toList ∧ node'.Shape b h ∧ node.nitems ≤ node'.nitems
  | _ => False

section Post
variable [TransCmp b.compare] (hcs : cs.length = xs.length) (hx : ∀ x ∈ xs, b.compare item x = .gt)
  (hy : ∀ x ∈ ys, b.compare item x = .lt)
include hcs hx hy

/-- What happens in a child happens in the branch. -/
theorem SetPost.frame (hn : (Node.branch (xs ++ ys) (cs ++ c :: ds)).Shape b (h + 1))
    (hs : Sorted b.compare (Node.branch (xs ++ ys) (cs ++ c :: ds)).toList) (hp : SetPost b malloc h c item res c')
    (hres : res ≠ .mustSplit) : SetPost b malloc (h + 1) (.branch (xs ++ ys) (cs ++ c :: ds)) item res
      (.branch (xs ++ ys) (cs ++ c' :: ds)) := by
  obtain ⟨hlen, hds, hc, hrest⟩ := (Node.shape_focus hcs).mp hn
  have hgt := gt_before hcs hds hs hx
  have hlt := lt_behind hcs hds hs hy
  have hshape (hc' : c'.Shape b h) (hle : c.nitems ≤ c'.nitems) :
      (Node.branch (xs ++ ys) (cs ++ c' :: ds)).Shape b (h + 1) :=
    (Node.shape_focus hcs).mpr ⟨hlen, hds, ⟨hc', hc.2.trans hle⟩, hrest⟩
  cases res with
  | mustSplit => exact absurd rfl hres
  | inserted =>
    obtain ⟨hfind, hlist, hc', hle⟩ := hp
    refine ⟨?_, ?_, hshape hc' hle, le_rfl⟩
    · rw [Node.toList_focus hcs hds, lookup_frame hgt hlt, hfind]
    · rw [Node.toList_focus hcs hds, Node.toList_focus hcs hds, upsert_frame hgt hlt, hlist]
  | replaced prev =>
    obtain ⟨hfind, hlist, hc', hle⟩ := hp
    refine ⟨?_, ?_, hshape hc' hle, le_rfl⟩
    · rw [Node.toList_focus hcs hds, lookup_frame hgt hlt, hfind]
    · rw [Node.toList_focus hcs hds, Node.toList_focus hcs hds, upsert_frame hgt hlt, hlist]
  | noMem =>
    obtain ⟨hm, hlist, hc', hle⟩ := hp
    refine ⟨hm, ?_, hshape hc' hle, le_rfl⟩
    rw [Node.toList_focus hcs hds, Node.toList_focus hcs hds, hlist]
  | noChange => exact hp.elim
  | deleted prev => exact hp.elim

end Post

/-- The result counts for another node with the same items. -/
theorem SetPost.congr {node₂ : Node α} (hp : SetPost b malloc h node item res node')
    (hlist : node.toList = node₂.toList) (hle : node₂.nitems ≤ node.nitems) (hres : res ≠ .mustSplit) :
    SetPost b malloc h node₂ item res node' := by
  cases res with
  | mustSplit => exact absurd rfl hres
  | inserted => exact ⟨hlist ▸ hp.1, hlist ▸ hp.2.1, hp.2.2.1, hle.trans hp.2.2.2⟩
  | replaced prev => exact ⟨hlist ▸ hp.1, hlist ▸ hp.2.1, hp.2.2.1, hle.trans hp.2.2.2⟩
  | noMem => exact ⟨hp.1, hlist ▸ hp.2.1, hp.2.2.1, hle.trans hp.2.2.2⟩
  | noChange => exact hp.elim
  | deleted prev => exact hp.elim

/-- A branch after the split of its full child. -/
theorem split_branch (hcs : cs.length = xs.length) (hn : (Node.branch (xs ++ ys) (cs ++ c :: ds)).Shape b (h + 1))
    (hlist : c.toList = l.toList ++ x :: r.toList) (hl : l.Child b h) (hr : r.Child b h)
    (hroom : (xs ++ ys).length < b.maxItems) : (Node.branch (xs ++ x :: ys) (cs ++ l :: r :: ds)).Shape b (h + 1) ∧
      (Node.branch (xs ++ x :: ys) (cs ++ l :: r :: ds)).toList = (Node.branch (xs ++ ys) (cs ++ c :: ds)).toList := by
  obtain ⟨hlen, hds, -, hrest, hrest'⟩ := (Node.shape_focus hcs).mp hn
  have hds' : (r :: ds).length = (x :: ys).length := congrArg (· + 1) hds
  refine ⟨(Node.shape_focus hcs).mpr ⟨?_, hds', hl, hrest, List.forall_mem_cons.mpr ⟨hr, hrest'⟩⟩, ?_⟩
  · rw [List.length_append, List.length_cons]
    rw [List.length_append] at hroom
    omega
  · rw [Node.toList_focus hcs hds', Node.toList_focus hcs hds, hlist, List.append_assoc]
    rfl

variable [TransCmp b.compare]

/-- An item that is in a branch itself is replaced there. -/
theorem nodeSet_branch_hit {y : α} (hx : ∀ x ∈ xs, b.compare item x = .gt) (heq : b.compare item y = .eq)
    (hy : ∀ x ∈ ys, b.compare item x = .lt) (hn : (Node.branch (xs ++ y :: ys) children).Shape b (h + 1))
    (hs : Sorted b.compare (Node.branch (xs ++ y :: ys) children).toList) :
    SetsTo b malloc (f + 1) (.branch (xs ++ y :: ys) children) item m (.replaced y)
        (.branch (xs ++ item :: ys) children) m ∧
      SetPost b malloc (h + 1) (.branch (xs ++ y :: ys) children) item (.replaced y)
        (.branch (xs ++ item :: ys) children) := by
  refine ⟨.branch_hit (finds_splits (sorted_items hn hs) (by simp) (.hit hx heq hy)), ?_⟩
  obtain ⟨cs, c, ds, rfl, hcs, hds⟩ := hn.place
  obtain ⟨d, ds, rfl⟩ := List.exists_cons_of_length_eq_add_one hds
  have hlist (z : α) : (Node.branch (xs ++ z :: ys) (cs ++ c :: d :: ds)).toList =
      before xs cs ++ c.toList ++ z :: (d.toList ++ behind ys ds) := by
    have hds'' : (d :: ds).length = (z :: ys).length := hds
    rw [Node.toList_focus hcs hds'', List.append_assoc]
    rfl
  rw [hlist] at hs
  have haround := hs.around (k := item)
  have hgt := haround.1 (by simp [heq])
  have hlt := haround.2 (by simp [heq])
  refine ⟨?_, ?_, ?_, by simp [Node.nitems, Node.items]⟩
  · rw [hlist, lookup_hit hgt hlt heq]
  · rw [hlist, hlist, upsert_hit hgt hlt heq]
  · rw [Node.shape_focus hcs] at hn ⊢
    simpa using hn

/-- Below a node of height `h` the call has this result when it has this much fuel. -/
def SetsAll (b : Settings α) (malloc : Nat → Bool) (item : α) (h : Nat) : Prop :=
  ∀ {f m node}, node.Shape b h → Sorted b.compare node.toList → 0 < node.nitems → 2 * h + 1 ≤ f →
    ∃ res node' m', SetsTo b malloc f node item m res node' m' ∧ SetPost b malloc h node item res node'

/-- With room in the child the call does not start again. -/
theorem nodeSet_room (hb : b.Ok) (ih : SetsAll b malloc item h) (hcs : cs.length = xs.length)
    (hx : ∀ x ∈ xs, b.compare item x = .gt) (hy : ∀ x ∈ ys, b.compare item x = .lt)
    (hn : (Node.branch (xs ++ ys) (cs ++ c :: ds)).Shape b (h + 1))
    (hs : Sorted b.compare (Node.branch (xs ++ ys) (cs ++ c :: ds)).toList) (hpos : xs ++ ys ≠ [])
    (hroom : c.nitems < b.maxItems) (hf : 2 * h + 1 ≤ f) : ∃ res node' m',
      SetsTo b malloc (f + 1) (.branch (xs ++ ys) (cs ++ c :: ds)) item m res node' m' ∧
      SetPost b malloc (h + 1) (.branch (xs ++ ys) (cs ++ c :: ds)) item res node' ∧ res ≠ .mustSplit := by
  obtain ⟨-, hds, hc, -⟩ := (Node.shape_focus hcs).mp hn
  obtain ⟨res, c', m', hset, hpost⟩ := ih hc.1 (sorted_child hcs hds hs) (hc.pos hb) hf
  have hres : res ≠ .mustSplit := by
    rintro rfl
    exact hroom.ne hpost.2.2
  exact ⟨res, _, m', .pass (finds_splits (sorted_items hn hs) hpos (.miss hx hy)) hcs hset hres,
    hpost.frame hcs hx hy hn hs hres, hres⟩

/-- After the split the search goes to one of the two halves, and finds room there. -/
theorem nodeSet_again (hb : b.Ok) (ih : SetsAll b malloc item h) (hcs : cs.length = xs.length)
    (hx : ∀ x ∈ xs, b.compare item x = .gt) (hy : ∀ x ∈ ys, b.compare item x = .lt) (hne : b.compare item x ≠ .eq)
    (hn : (Node.branch (xs ++ x :: ys) (cs ++ l :: r :: ds)).Shape b (h + 1))
    (hs : Sorted b.compare (Node.branch (xs ++ x :: ys) (cs ++ l :: r :: ds)).toList)
    (hl : l.nitems < b.maxItems) (hr : r.nitems < b.maxItems) (hf : 2 * h + 1 ≤ f) : ∃ res node' m',
      SetsTo b malloc (f + 1) (.branch (xs ++ x :: ys) (cs ++ l :: r :: ds)) item m res node' m' ∧
      SetPost b malloc (h + 1) (.branch (xs ++ x :: ys) (cs ++ l :: r :: ds)) item res node' ∧ res ≠ .mustSplit := by
  cases hc : b.compare item x with
  | eq => exact absurd hc hne
  | lt => exact nodeSet_room hb ih hcs hx (List.forall_mem_cons.mpr ⟨hc, hy⟩) hn hs (by simp) hl hf
  | gt =>
    have hxs : ∀ a ∈ xs ++ [x], b.compare item a = .gt := by simpa [or_imp, forall_and, hc] using hx
    have hcs' : (cs ++ [l]).length = (xs ++ [x]).length := by simp [hcs]
    have hitems : xs ++ x :: ys = (xs ++ [x]) ++ ys := by simp
    have hchildren : cs ++ l :: r :: ds = (cs ++ [l]) ++ r :: ds := by simp
    rw [hitems, hchildren] at hn hs ⊢
    exact nodeSet_room hb ih hcs' hxs hy hn hs (by simp) hr hf

/-- The step from one height to the next. -/
theorem setsAll_branch (hb : b.Ok) (ih : SetsAll b malloc item h) : SetsAll b malloc item (h + 1) := by
  intro f m node hn hs hpos hf
  cases node with
  | leaf items => exact hn.elim
  | branch items children =>
    obtain ⟨f, rfl⟩ : ∃ f', f = f' + 1 := ⟨f - 1, by omega⟩
    obtain ⟨i, found, hsplits⟩ := (sorted_items hn hs).splits item
    cases hsplits with
    | hit hx heq hy => exact ⟨_, _, _, nodeSet_branch_hit hx heq hy hn hs⟩
    | @miss xs ys hx hy =>
      obtain ⟨cs, c, ds, rfl, hcs, -⟩ := hn.place
      have hne : xs ++ ys ≠ [] := List.ne_nil_of_length_pos hpos
      have hfinds := finds_splits (sorted_items hn hs) hne (.miss hx hy)
      obtain ⟨hlen, hds, hc, -⟩ := (Node.shape_focus hcs).mp hn
      obtain ⟨res, c', m', hset, hpost⟩ : ∃ res c' m', SetsTo b malloc f c item m res c' m' ∧ _ :=
        ih hc.1 (sorted_child hcs hds hs) (hc.pos hb) (by omega)
      by_cases hres : res = .mustSplit
      · subst hres
        obtain ⟨hnone, rfl, hfull⟩ := hpost
        have hlookup : lookup b.compare item (Node.branch (xs ++ ys) (cs ++ c' :: ds)).toList = none := by
          rw [Node.toList_focus hcs hds, lookup_frame (gt_before hcs hds hs hx) (lt_behind hcs hds hs hy), hnone]
        by_cases hroom : (xs ++ ys).length < b.maxItems
        · cases hm : malloc m' with
          | false => exact ⟨_, _, _, .noMem hfinds hcs hset hroom hm, ⟨m', hm⟩, rfl, hn, le_rfl⟩
          | true =>
            obtain ⟨l, x, r, hsplit, hlist, ⟨hl, hlroom⟩, hr, hrroom⟩ := nodeSplit_full hb hc.1 hfull
            obtain ⟨hn', hlist'⟩ := split_branch hcs hn hlist hl hr hroom
            have hne' : b.compare item x ≠ .eq := lookup_eq_none.mp hnone x (by simp [hlist])
            obtain ⟨f, rfl⟩ : ∃ f', f = f' + 1 := ⟨f - 1, by omega⟩
            have hf' : 2 * h + 1 ≤ f := by omega
            obtain ⟨res, node', m'', hset', hpost', hres'⟩ := nodeSet_again hb ih hcs hx hy hne' hn' (hlist' ▸ hs)
              hlroom hrroom hf'
            refine ⟨_, _, _, .again hfinds hcs hset hroom hm hsplit hset', hpost'.congr hlist' ?_ hres'⟩
            simp [Node.nitems, Node.items]
        · have hfull' : (xs ++ ys).length = b.maxItems := Nat.le_antisymm hlen (Nat.not_lt.mp hroom)
          exact ⟨_, _, _, .full hfinds hcs hset hfull', hlookup, rfl, hfull'⟩
      · exact ⟨_, _, _, .pass hfinds hcs hset hres, hpost.frame hcs hx hy hn hs hres⟩

theorem setsAll_leaf (item : α) : SetsAll b malloc item 0 := by
  intro f m node hn hs hpos hf
  cases node with
  | branch items children => exact hn.elim
  | leaf items =>
    obtain ⟨f, rfl⟩ := Nat.exists_eq_add_of_le' hf
    have hlen := (Node.shape_leaf.mp hn).2
    obtain ⟨i, found, hsplits⟩ := Sorted.splits hs item
    cases hsplits with
    | @hit xs ys y hx heq hy =>
      refine ⟨_, _, _, .leaf_hit (finds_splits hs (by simp) (.hit hx heq hy)), lookup_hit hx hy heq,
        (upsert_hit hx hy heq).symm, ?_, by simp [Node.nitems, Node.items]⟩
      simpa [Node.shape_leaf] using hlen
    | @miss xs ys hx hy =>
      have hfinds := finds_splits hs (List.ne_nil_of_length_pos hpos) (.miss hx hy)
      by_cases hroom : (xs ++ ys).length < b.maxItems
      · refine ⟨_, _, _, .leaf_room hfinds hroom, lookup_miss hx hy, (upsert_miss hx hy).symm, ?_,
          by simp [Node.nitems, Node.items]⟩
        rw [List.length_append] at hroom
        simp only [Node.shape_leaf, List.length_append, List.length_cons, true_and]
        omega
      · have hfull : (xs ++ ys).length = b.maxItems := Nat.le_antisymm hlen (Nat.not_lt.mp hroom)
        exact ⟨_, _, _, .leaf_full hfinds hfull, lookup_miss hx hy, rfl, hfull⟩

/-- Setting an item below any node of the tree. -/
theorem setsAll (hb : b.Ok) (item : α) : ∀ h, SetsAll b malloc item h
  | 0 => setsAll_leaf item
  | h + 1 => setsAll_branch hb (setsAll hb item h)

/-! ### Setting an item in a tree -/

variable {t t' : Btree α} {prev : Option α} {root root' : Node α} {n : Nat}

variable (b malloc) in
/-- The call sets the item and returns the one it replaces, or there is no memory and the items stay as they were. -/
structure SetOutcome (l : List α) (item : α) (t' : Btree α) (prev : Option α) : Prop where
  valid : Valid b t'
  result : t'.oom = false ∧ prev = lookup b.compare item l ∧ t'.toList = upsert b.compare item l ∨
    t'.oom = true ∧ prev = none ∧ t'.toList = l ∧ ∃ n, malloc n = false

/-- A round in which the root needs no split. -/
theorem setLoop_done (hset : SetsTo b malloc t.fuel root item m res root' m')
    (hp : SetPost b malloc h root item res root') (hres : res ≠ .mustSplit) (hheight : t.height = h + 1)
    (hpos : 0 < root.nitems) (hs : Sorted b.compare root.toList) (hcount : t.count = root.toList.length)
    (hoom : t.oom = false) : ∃ t' prev,
      (∀ hint, ∃ hint', setLoop b malloc (n + 1) t root item ⟨hint, m⟩ = some (t', prev, hint')) ∧
      SetOutcome b malloc root.toList item t' prev := by
  obtain ⟨_, count, _, _⟩ := t
  obtain rfl : _ = h + 1 := hheight
  obtain rfl : _ = root.toList.length := hcount
  obtain rfl : _ = false := hoom
  have hlength := hs.length_upsert item
  cases res with
  | mustSplit => exact absurd rfl hres
  | inserted =>
    obtain ⟨hfind, hlist, hshape, hle⟩ := hp
    rw [hfind, if_pos rfl] at hlength
    refine ⟨⟨some root', root.toList.length + 1, h + 1, false⟩, none, fun hint => ?_,
      valid_root.mpr ⟨hshape, hpos.trans_le hle, hlist ▸ hs.upsert item, by rw [hlist, hlength]⟩,
      Or.inl ⟨rfl, hfind.symm, hlist⟩⟩
    obtain ⟨hint', hcall⟩ := hset hint 0
    exact ⟨hint', by simp only [setLoop, hcall, Option.bind_eq_bind, Option.bind_some]⟩
  | replaced prev =>
    obtain ⟨hfind, hlist, hshape, hle⟩ := hp
    rw [hfind, if_neg (Option.some_ne_none prev)] at hlength
    refine ⟨⟨some root', root.toList.length, h + 1, false⟩, some prev, fun hint => ?_,
      valid_root.mpr ⟨hshape, hpos.trans_le hle, hlist ▸ hs.upsert item, by rw [hlist, hlength, Nat.add_zero]⟩,
      Or.inl ⟨rfl, hfind.symm, hlist⟩⟩
    obtain ⟨hint', hcall⟩ := hset hint 0
    exact ⟨hint', by simp only [setLoop, hcall, Option.bind_eq_bind, Option.bind_some]⟩
  | noMem =>
    obtain ⟨hm, hlist, hshape, hle⟩ := hp
    refine ⟨⟨some root', root.toList.length, h + 1, true⟩, none, fun hint => ?_,
      valid_root.mpr ⟨hshape, hpos.trans_le hle, hlist ▸ hs, by rw [hlist]⟩, Or.inr ⟨rfl, rfl, hlist, hm⟩⟩
    obtain ⟨hint', hcall⟩ := hset hint 0
    exact ⟨hint', by simp only [setLoop, hcall, Option.bind_eq_bind, Option.bind_some]⟩
  | noChange => exact hp.elim
  | deleted prev => exact hp.elim

/-- `btree_set` on a valid tree: the outcome is the same with any hint. -/
theorem set0_valid (hb : b.Ok) (ht : Valid b t) (malloc : Nat → Bool) (item : α) : ∃ t' prev,
    (∀ hint, ∃ hint', set0 b malloc t item hint = some (t', prev, hint')) ∧
      SetOutcome b malloc t.toList item t' prev := by
  rcases ht.cases with ht | ⟨root, h, ht, hshape, hpos, hs⟩
  · rw [ht]
    cases hm : malloc 0 with
    | false =>
      exact ⟨⟨none, 0, 0, true⟩, none, fun hint => ⟨hint, by simp [set0, hm]⟩, (new_valid b).with_oom true,
        Or.inr ⟨rfl, rfl, rfl, 0, hm⟩⟩
    | true =>
      have hmax := hb.maxItems
      have hleaf : (Node.leaf [item]).Shape b 0 := Node.shape_leaf.mpr ⟨rfl, by rw [List.length_singleton]; omega⟩
      exact ⟨⟨some (.leaf [item]), 1, 1, false⟩, none, fun hint => ⟨hint, by simp [set0, hm]⟩,
        valid_root.mpr ⟨hleaf, Nat.one_pos, List.pairwise_singleton .., rfl⟩, Or.inl ⟨rfl, rfl, rfl⟩⟩
  · have hlist : t.toList = root.toList := by
      rw [ht]
      rfl
    rw [hlist]
    have hall : SetsAll b malloc item h := setsAll hb item h
    obtain ⟨res, root', m', hset, hpost⟩ := hall (m := 0) (f := 2 * (h + 1) + 2) hshape hs hpos (by omega)
    have hset0 (hint : Option Hint) : set0 b malloc t item hint = setLoop b malloc 2
        ⟨some root, root.toList.length, h + 1, false⟩ root item ⟨hint, 0⟩ := by
      rw [ht]
      rfl
    simp only [hset0]
    by_cases hres : res = .mustSplit
    · subst hres
      obtain ⟨hfind, rfl, hfull⟩ := hpost
      by_cases hm : malloc m' = false ∨ malloc (m' + 1) = false
      · refine ⟨⟨some root', root'.toList.length, h + 1, true⟩, none, fun hint => ?_,
          valid_root.mpr ⟨hshape, hpos, hs, rfl⟩, Or.inr ⟨rfl, rfl, rfl, hm.elim (fun h => ⟨_, h⟩) fun h => ⟨_, h⟩⟩⟩
        obtain ⟨hint', hcall⟩ := hset hint 0
        exact ⟨hint', by simp only [setLoop, fuel, hcall, Option.bind_eq_bind, Option.bind_some, hm, if_true]⟩
      · obtain ⟨l, x, r, hsplit, hlist', ⟨hl, hlroom⟩, hr, hrroom⟩ := nodeSplit_full hb hshape hfull
        have hnew : (Node.branch ([] ++ x :: []) ([] ++ l :: r :: [])).toList = root'.toList := by
          rw [hlist', Node.toList_branch]
          rfl
        have hmax := hb.maxItems
        have hshape' : (Node.branch ([] ++ x :: []) ([] ++ l :: r :: [])).Shape b (h + 1) := by
          refine Node.shape_branch.mpr ⟨?_, rfl, by simpa using ⟨hl, hr⟩⟩
          rw [List.nil_append, List.length_singleton]
          omega
        have hs' : Sorted b.compare (Node.branch ([] ++ x :: []) ([] ++ l :: r :: [])).toList := hnew ▸ hs
        have hne : b.compare item x ≠ .eq := lookup_eq_none.mp hfind x (by simp [hlist'])
        obtain ⟨res, root'', m'', hset', hpost', hres'⟩ := nodeSet_again (m := m' + 2) (f := 2 * h + 5) hb hall rfl
          (by simp) (by simp) hne hshape' hs' hlroom hrroom (by omega)
        obtain ⟨t', prev, hloop, hout⟩ := setLoop_done (n := 0)
          (t := ⟨some (.branch [x] [l, r]), root'.toList.length, h + 2, false⟩) hset' hpost' hres' rfl Nat.one_pos hs'
          (congrArg List.length hnew.symm) rfl
        refine ⟨t', prev, fun hint => ?_, hnew ▸ hout⟩
        obtain ⟨hint₁, hcall⟩ := hset hint 0
        obtain ⟨hint₂, hcall₂⟩ := hloop hint₁
        refine ⟨hint₂, ?_⟩
        rw [setLoop]
        simp only [fuel, hcall, Option.bind_eq_bind, Option.bind_some, hm, if_false, hsplit]
        exact hcall₂
    · exact setLoop_done hset hpost hres rfl hpos hs rfl rfl

/-! ### Loading in order -/

section Last
variable {malloc : Nat → Bool} (hfinds : Finds b.compare items item items.length false)
include hfinds

omit [TransCmp b.compare] in
theorem SetsTo.leaf_last (hroom : items.length < b.maxItems) :
    SetsTo b malloc (f + 1) (.leaf items) item m .inserted (.leaf (items ++ [item])) m := by
  have hfinds' : Finds b.compare (items ++ []) item items.length false := (List.append_nil items).symm ▸ hfinds
  have hset : SetsTo b malloc (f + 1) (.leaf (items ++ [])) item m .inserted (.leaf (items ++ [item])) m :=
    .leaf_room hfinds' (by rwa [List.append_nil])
  rwa [List.append_nil] at hset

omit [TransCmp b.compare] in
theorem SetsTo.pass_last (hcs : cs.length = items.length) (hc : SetsTo b malloc f c item m res c' m')
    (hres : res ≠ .mustSplit) :
    SetsTo b malloc (f + 1) (.branch items (cs ++ [c])) item m res (.branch items (cs ++ [c'])) m' := by
  have hfinds' : Finds b.compare (items ++ []) item items.length false := (List.append_nil items).symm ▸ hfinds
  have hset : SetsTo b malloc (f + 1) (.branch (items ++ []) (cs ++ c :: [])) item m res
    (.branch (items ++ []) (cs ++ c' :: [])) m' := .pass hfinds' hcs hc hres
  rwa [List.append_nil] at hset

end Last

theorem finds_last (hs : Sorted b.compare items) (hpos : items ≠ []) (h : ∀ x ∈ items, b.compare item x = .gt) :
    Finds b.compare items item items.length false := by
  have hmiss : Splits b.compare item (items ++ []) items.length false := .miss h (by simp)
  rw [List.append_nil] at hmiss
  exact finds_splits hs hpos hmiss

/-- When the last leaf takes the item, `btree_node_set` puts it there, too. -/
theorem loadLoop_set (hb : b.Ok) (item : α) : ∀ {h : Nat} {node : Node α}, node.Shape b h →
    Sorted b.compare node.toList → 0 < node.nitems → ∃ res, loadLoop b (h + 1) node item = some res ∧
      ∀ node', res = some node' → (∃ a ∈ node.toList, b.compare item a = .gt) ∧
        ∀ {malloc f m}, h + 1 ≤ f → SetsTo b malloc f node item m .inserted node' m
  | 0, .branch .., hn, _, _ => hn.elim
  | _ + 1, .leaf _, hn, _, _ => hn.elim
  | 0, .leaf items, hn, hs, hpos => by
    rcases List.eq_nil_or_concat' items with rfl | ⟨xs, a, rfl⟩
    · exact absurd hpos (Nat.lt_irrefl 0)
    have hlast : (xs ++ [a])[(xs ++ [a]).length - 1]? = some a := by simp
    rw [loadLoop]
    by_cases hfull : (xs ++ [a]).length = b.maxItems
    · exact ⟨none, by rw [if_pos hfull], by simp⟩
    by_cases hgt : b.compare item a = .gt
    · have hroom : (xs ++ [a]).length < b.maxItems := Nat.lt_of_le_of_ne (Node.shape_leaf.mp hn).2 hfull
      have hall : ∀ x ∈ xs ++ [a], b.compare item x = .gt := by
        have hxs := (Sorted.around (k := item) hs).1 (by simp [hgt])
        simpa [or_imp, forall_and, hgt] using hxs
      have hfinds := finds_last hs (by simp) hall
      refine ⟨some (.leaf (xs ++ [a] ++ [item])), ?_, ?_⟩
      · have hinsert : insertItem b (xs ++ [a]) (xs ++ [a]).length item = some (xs ++ [a] ++ [item]) := by
          rw [insertItem, if_pos ⟨hroom, le_rfl⟩, List.insertIdx_length_self]
        rw [if_neg hfull, hlast]
        simp only [Option.bind_eq_bind, Option.bind_some, hgt, ne_eq, not_true_eq_false, if_false, hinsert]
      · rintro node' hnode
        obtain rfl := Option.some.inj hnode
        refine ⟨⟨a, by simp, hgt⟩, fun {malloc f m} hf => ?_⟩
        obtain ⟨f, rfl⟩ := Nat.exists_eq_add_of_le' hf
        exact .leaf_last hfinds hroom
    · exact ⟨none, by rw [if_neg hfull, hlast]; simp [hgt], by simp⟩
  | h + 1, .branch items children, hn, hs, hpos => by
    have hitems := sorted_items hn hs
    rw [← List.append_nil items] at hn hs
    obtain ⟨cs, c, ds, rfl, hcs, hds⟩ := hn.place
    obtain rfl := List.eq_nil_of_length_eq_zero hds
    obtain ⟨-, -, hc, -⟩ := (Node.shape_focus hcs).mp hn
    obtain ⟨res, hload, hres⟩ := loadLoop_set hb item hc.1 (sorted_child hcs hds hs) (hc.pos hb)
    refine ⟨res.map fun child => .branch items (cs ++ [child]), ?_, ?_⟩
    · rw [loadLoop, get_place hcs]
      simp only [Option.bind_eq_bind, Option.bind_some, hload, set_place hcs]
    · rintro node' hnode
      obtain ⟨c', rfl, rfl⟩ := Option.map_eq_some_iff.mp hnode
      obtain ⟨⟨a, ha, hgt⟩, hset⟩ := hres c' rfl
      rw [Node.toList_focus hcs hds] at hs
      have hcross := (sorted_append.mp hs).2.2
      have hall : ∀ x ∈ items, b.compare item x = .gt := fun x hx =>
        gt_of_lt_of_gt hgt (hcross x ((sublist_front (by rw [List.length_map, hcs])).subset hx) a
          (List.mem_append_left _ ha))
      have hfinds := finds_last hitems (List.ne_nil_of_length_pos hpos) hall
      refine ⟨⟨a, ?_, hgt⟩, fun {malloc f m} hf => ?_⟩
      · rw [← List.append_nil items, Node.toList_focus hcs hds]
        exact List.mem_append_right _ (List.mem_append_left _ ha)
      · obtain ⟨f, rfl⟩ : ∃ f', f = f' + 1 := ⟨f - 1, by omega⟩
        exact .pass_last hfinds hcs (hset (by omega)) (by simp)

/-- `btree_load` does what `btree_set` does. -/
theorem load_eq_set0 (hb : b.Ok) (ht : Valid b t) (malloc : Nat → Bool) (item : α) :
    load b malloc t item = (set0 b malloc t item none).map fun (t, prev, _) => (t, prev) := by
  rcases ht.cases with ht | ⟨root, h, ht, hshape, hpos, hs⟩
  · rw [ht]
    cases hm : malloc 0 <;> simp [load, set0, hm]
  · obtain ⟨res, hload, hres⟩ := loadLoop_set hb item hshape hs hpos
    rw [ht, load]
    simp only [Option.bind_eq_bind, hload, Option.bind_some]
    cases res with
    | none =>
      simp only [set0]
      cases setLoop b malloc 2 ⟨some root, root.toList.length, h + 1, false⟩ root item ⟨none, 0⟩ <;> rfl
    | some root' =>
      have hsets : SetsTo b malloc (2 * (h + 1) + 2) root item 0 .inserted root' 0 := (hres root' rfl).2 (by omega)
      obtain ⟨hint', hset⟩ := hsets none 0
      simp only [set0, setLoop, fuel, hset, Option.bind_eq_bind, Option.bind_some, Option.map_some]

end KvStore.Btree
