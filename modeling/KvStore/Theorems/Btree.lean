import KvStore.Theorems.BtreeSet
import KvStore.Theorems.BtreeDelete
import KvStore.Lib.Run
import Mathlib.Algebra.Order.BigOperators.Group.List
import Mathlib.Algebra.Order.Group.Nat

/-! A B-tree over whole runs of calls: it answers as a sorted list does, all its leaves stay at one depth, and neither
    the hints nor the shortcuts of `btree_load` and of the pops make a difference. -/

namespace KvStore.Btree
open Ordered Weave Std

variable {α : Type} {b : Settings α} {t : Btree α}

/-! ### Reading -/

/-- The first item below a node, and the last one, are in leaves. -/
theorem minLoop_eq (hb : b.Ok) : ∀ {h : Nat} {node : Node α}, node.Shape b h → minLoop (h + 1) node = node.toList.head?
  | 0, .branch .., hn => hn.elim
  | _ + 1, .leaf _, hn => hn.elim
  | 0, .leaf items, _ => by
    rw [minLoop, Node.toList_leaf, List.head?_eq_getElem?]
  | h + 1, .branch items children, hn => by
    have hn' : (Node.branch ([] ++ items) children).Shape b (h + 1) := hn
    obtain ⟨cs, c, ds, rfl, hcs, hds⟩ := hn'.place
    obtain rfl := List.eq_nil_of_length_eq_zero hcs
    obtain ⟨-, -, hc, -⟩ := (Node.shape_focus hcs).mp hn'
    have hfocus : (Node.branch ([] ++ items) ([] ++ c :: ds)).toList = _ := Node.toList_focus hcs hds
    obtain ⟨x, l, hl⟩ := List.exists_cons_of_ne_nil (toList_ne_nil hc.1 (hc.pos hb))
    rw [List.nil_append, List.nil_append, hl] at hfocus
    rw [List.nil_append, minLoop, hfocus]
    simp only [List.getElem?_cons_zero, Option.bind_eq_bind, Option.bind_some, minLoop_eq hb hc.1, hl]
    rfl

theorem maxLoop_eq (hb : b.Ok) : ∀ {h : Nat} {node : Node α}, node.Shape b h →
    maxLoop (h + 1) node = node.toList.getLast?
  | 0, .branch .., hn => hn.elim
  | _ + 1, .leaf _, hn => hn.elim
  | 0, .leaf items, _ => by
    rw [maxLoop, Node.toList_leaf, List.getLast?_eq_getElem?]
  | h + 1, .branch items children, hn => by
    rw [← List.append_nil items] at hn
    obtain ⟨cs, c, ds, rfl, hcs, hds⟩ := hn.place
    obtain rfl := List.eq_nil_of_length_eq_zero hds
    obtain ⟨-, -, hc, -⟩ := (Node.shape_focus hcs).mp hn
    have hfocus := Node.toList_focus (c := c) hcs hds
    rw [List.append_nil] at hfocus
    have hne := toList_ne_nil hc.1 (hc.pos hb)
    rw [maxLoop, hfocus, get_place hcs, Option.bind_eq_bind, Option.bind_some, maxLoop_eq hb hc.1, behind, back_nil,
      List.append_nil, List.getLast?_append_of_ne_nil _ hne]

/-- A key is found wherever it is, with any hint. -/
theorem getLoop_eq [TransCmp b.compare] (hb : b.Ok) (key : α) : ∀ {h : Nat} {node : Node α}, node.Shape b h →
    Sorted b.compare node.toList → 0 < node.nitems → ∀ hint depth, ∃ hint',
      getLoop b (h + 1) node key hint depth = some (lookup b.compare key node.toList, hint')
  | 0, .branch .., hn, _, _ => hn.elim
  | _ + 1, .leaf _, hn, _, _ => hn.elim
  | 0, .leaf items, hn, hs, hpos => by
    intro hint depth
    obtain ⟨i, found, hsplits⟩ := Sorted.splits hs key
    obtain ⟨hint', hsearch⟩ := finds_splits hs (List.ne_nil_of_length_pos hpos) hsplits hint depth
    rw [Node.toList_leaf] at hsearch hsplits ⊢
    refine ⟨hint', ?_⟩
    simp only [getLoop, hsearch, Option.bind_eq_bind, Option.bind_some]
    rcases hsplits.parts with ⟨xs, y, ys, rfl, rfl, rfl, hx, heq, hy⟩ | ⟨xs, ys, rfl, rfl, rfl, hx, hy⟩
    · rw [if_pos rfl, get_place rfl, lookup_hit hx hy heq]
      rfl
    · rw [if_neg Bool.false_ne_true, lookup_miss hx hy]
  | h + 1, .branch items children, hn, hs, hpos => by
    intro hint depth
    obtain ⟨i, found, hsplits⟩ := (sorted_items hn hs).splits key
    obtain ⟨hint₁, hsearch⟩ := finds_splits (sorted_items hn hs) (List.ne_nil_of_length_pos hpos) hsplits hint depth
    rw [Node.items] at hsearch hsplits
    rcases hsplits.parts with ⟨xs, y, ys, rfl, rfl, rfl, hx, heq, hy⟩ | ⟨xs, ys, rfl, rfl, rfl, hx, hy⟩
    · obtain ⟨cs, c, ds, rfl, hcs, hds⟩ := hn.place
      obtain ⟨d, ds, rfl⟩ := List.exists_cons_of_length_eq_add_one hds
      have hlist : (Node.branch (xs ++ y :: ys) (cs ++ c :: d :: ds)).toList =
          (before xs cs ++ c.toList) ++ y :: (d.toList ++ behind ys ds) := by
        rw [Node.toList_focus hcs hds, List.append_assoc]
        rfl
      rw [hlist] at hs ⊢
      have haround := hs.around (k := key)
      rw [lookup_hit (haround.1 (by simp [heq])) (haround.2 (by simp [heq])) heq]
      exact ⟨hint₁, by simp only [getLoop, hsearch, Option.bind_eq_bind, Option.bind_some, if_true, get_place]⟩
    · obtain ⟨cs, c, ds, rfl, hcs, hds⟩ := hn.place
      obtain ⟨-, -, hc, -⟩ := (Node.shape_focus hcs).mp hn
      obtain ⟨hint₂, hget⟩ := getLoop_eq hb key hc.1 (sorted_child hcs hds hs) (hc.pos hb) hint₁ (depth + 1)
      rw [Node.toList_focus hcs hds, lookup_frame (gt_before hcs hds hs hx) (lt_behind hcs hds hs hy)]
      refine ⟨hint₂, ?_⟩
      simpa only [getLoop, hsearch, Option.bind_eq_bind, Option.bind_some, Bool.false_eq_true, if_false, get_place hcs]
        using hget

section Trees
variable (hb : b.Ok) (ht : Valid b t)
include hb ht

theorem min_valid : t.min = some t.toList.head? := by
  rcases ht.cases with ht | ⟨root, h, ht, hshape, hpos, -⟩
  · rw [ht]
    rfl
  · obtain ⟨x, l, hl⟩ := List.exists_cons_of_ne_nil (toList_ne_nil hshape hpos)
    rw [ht, Btree.min]
    simp only [minLoop_eq hb hshape, toList, Option.map_some, Option.getD_some, hl, List.head?_cons]

theorem max_valid : t.max = some t.toList.getLast? := by
  rcases ht.cases with ht | ⟨root, h, ht, hshape, hpos, -⟩
  · rw [ht]
    rfl
  · have hl := List.getLast?_eq_some_getLast (toList_ne_nil hshape hpos)
    rw [ht, Btree.max]
    simp only [maxLoop_eq hb hshape, toList, Option.map_some, Option.getD_some, hl]

/-- `btree_get` finds what the tree holds, with any hint. -/
theorem get0_valid [TransCmp b.compare] (key : α) (hint : Option Hint) :
    ∃ hint', get0 b t key hint = some (lookup b.compare key t.toList, hint') := by
  rcases ht.cases with ht | ⟨root, h, ht, hshape, hpos, hs⟩
  · rw [ht]
    exact ⟨hint, rfl⟩
  · rw [ht]
    exact getLoop_eq hb key hshape hs hpos hint 0

end Trees

/-! ### Whole runs -/

/-- What a call may return for a sorted list, and how it may leave the list and the mark of a lack of memory. Only a
    call that needs memory may fail, and only when an allocation does. -/
def Serves (compare : α → α → Ordering) (s : List α × Bool) (call : Call α) (r : Ret α) (s' : List α × Bool) : Prop :=
  match call with
  | .set malloc item _ | .load malloc item =>
    r = .item (lookup compare item s.1) ∧ s' = (upsert compare item s.1, false) ∨
      r = .item none ∧ s' = (s.1, true) ∧ ∃ n, malloc n = false
  | .get key _ => r = .item (lookup compare key s.1) ∧ s' = s
  | .delete key _ => r = .item (lookup compare key s.1) ∧ s' = (erase compare key s.1, false)
  | .popMin => r = .item s.1.head? ∧ s' = (s.1.tail, false)
  | .popMax => r = .item s.1.getLast? ∧ s' = (s.1.dropLast, false)
  | .min => r = .item s.1.head? ∧ s' = s
  | .max => r = .item s.1.getLast? ∧ s' = s
  | .count => r = .size s.1.length ∧ s' = s
  | .oom => r = .flag s.2 ∧ s' = s
  | .clear => r = .unit ∧ s' = ([], false)

/-- The tree is valid and stands for this list and mark. -/
def Stands (b : Settings α) (t : Btree α) (s : List α × Bool) : Prop := Valid b t ∧ s = (t.toList, t.oom)

theorem SetOutcome.serves {malloc : Nat → Bool} {t' : Btree α} {l : List α} {item : α} {prev : Option α}
    (h : SetOutcome b malloc l item t' prev) (oom : Bool) (hint : Option Hint) :
    Serves b.compare (l, oom) (.set malloc item hint) (.item prev) (t'.toList, t'.oom) := by
  rcases h.result with ⟨hoom, rfl, hlist⟩ | ⟨hoom, rfl, hlist, hm⟩
  · exact .inl ⟨rfl, by rw [hlist, hoom]⟩
  · exact .inr ⟨rfl, by rw [hlist, hoom], hm⟩

/-- A deletion answers and leaves what these two functions of the list say. -/
theorem DelOutcome.serves {act : DelAct α} {t' : Btree α} {l : List α} {prev : Option α} {out : List α → Option α}
    {rest : List α → List α} (h : DelOutcome b l act t' prev)
    (htake : (act.take b.compare l).map Prod.fst = out l ∧ ((act.take b.compare l).map Prod.snd).getD l = rest l) :
    Ret.item prev = .item (out l) ∧ (t'.toList, t'.oom) = (rest l, false) := by
  rw [h.prev, htake.1, h.toList, htake.2, h.oom]
  exact ⟨rfl, rfl⟩

theorem DelAct.take_delKey (compare : α → α → Ordering) (key : α) (l : List α) :
    ((DelAct.delKey key).take compare l).map Prod.fst = lookup compare key l ∧
      (((DelAct.delKey key).take compare l).map Prod.snd).getD l = erase compare key l := by
  rw [DelAct.take]
  cases h : lookup compare key l with
  | none => exact ⟨rfl, (erase_of_ne (lookup_eq_none.mp h)).symm⟩
  | some x => exact ⟨rfl, rfl⟩

theorem DelAct.take_popFront (compare : α → α → Ordering) (l : List α) :
    (DelAct.popFront.take compare l).map Prod.fst = l.head? ∧
      ((DelAct.popFront.take compare l).map Prod.snd).getD l = l.tail := by
  cases l <;> exact ⟨rfl, rfl⟩

theorem DelAct.take_popBack (compare : α → α → Ordering) (l : List α) :
    (DelAct.popBack.take compare l).map Prod.fst = l.getLast? ∧
      ((DelAct.popBack.take compare l).map Prod.snd).getD l = l.dropLast := by
  rcases List.eq_nil_or_concat' l with rfl | ⟨l, x, rfl⟩
  · exact ⟨rfl, rfl⟩
  · simp [DelAct.take]

section Runs
variable [TransCmp b.compare]

/-- One call. -/
theorem step_serves (hb : b.Ok) {s : List α × Bool} (h : Stands b t s) (call : Call α) :
    ∃ t' r s', step b t call = some (t', r) ∧ Serves b.compare s call r s' ∧ Stands b t' s' := by
  obtain ⟨ht, rfl⟩ := h
  have hdel (act : DelAct α) := delete0_valid hb ht act
  cases call with
  | set malloc item hint =>
    obtain ⟨t', prev, hset, hout⟩ := set0_valid hb ht malloc item
    obtain ⟨hint', hset⟩ := hset hint
    exact ⟨t', .item prev, _, by simp [step, hset], hout.serves t.oom hint, hout.valid, rfl⟩
  | load malloc item =>
    obtain ⟨t', prev, hset, hout⟩ := set0_valid hb ht malloc item
    obtain ⟨hint', hset⟩ := hset none
    have hload : load b malloc t item = some (t', prev) := by rw [load_eq_set0 hb ht, hset]; rfl
    exact ⟨t', .item prev, _, by simp [step, hload], hout.serves t.oom none, hout.valid, rfl⟩
  | get key hint =>
    obtain ⟨hint', hget⟩ := get0_valid hb ht key hint
    exact ⟨t, _, _, by simp [step, hget], ⟨rfl, rfl⟩, ht, rfl⟩
  | delete key hint =>
    obtain ⟨t', prev, hdel, hout⟩ := hdel (.delKey key)
    obtain ⟨hint', hdel⟩ := hdel hint
    exact ⟨t', .item prev, _, by simp [step, hdel], hout.serves (DelAct.take_delKey _ _ _), hout.valid, rfl⟩
  | popMin =>
    obtain ⟨t', prev, hdel, hout⟩ := hdel .popFront
    obtain ⟨hint', hdel⟩ := hdel none
    have hpop : popMin b t = some (t', prev) := by rw [popMin, pop_eq_delete0 hb ht (popMinLoop_delete hb), hdel]; rfl
    exact ⟨t', .item prev, _, by simp [step, hpop], hout.serves (DelAct.take_popFront _ _), hout.valid, rfl⟩
  | popMax =>
    obtain ⟨t', prev, hdel, hout⟩ := hdel .popBack
    obtain ⟨hint', hdel⟩ := hdel none
    have hpop : popMax b t = some (t', prev) := by rw [popMax, pop_eq_delete0 hb ht (popMaxLoop_delete hb), hdel]; rfl
    exact ⟨t', .item prev, _, by simp [step, hpop], hout.serves (DelAct.take_popBack _ _), hout.valid, rfl⟩
  | min => exact ⟨t, _, _, by simp [step, min_valid hb ht], ⟨rfl, rfl⟩, ht, rfl⟩
  | max => exact ⟨t, _, _, by simp [step, max_valid hb ht], ⟨rfl, rfl⟩, ht, rfl⟩
  | count => exact ⟨t, _, _, rfl, ⟨congrArg Ret.size ht.count, rfl⟩, ht, rfl⟩
  | oom => exact ⟨t, _, _, rfl, ⟨rfl, rfl⟩, ht, rfl⟩
  | clear => exact ⟨new, _, _, rfl, ⟨rfl, rfl⟩, new_valid b, rfl⟩

/-- No run faults. -/
theorem runs_stands (hb : b.Ok) (calls : List (Call α)) : ∃ t rets s, Run.runs (step b) new calls = some (t, rets) ∧
    Run.Allowed (Serves b.compare) ([], false) calls rets s ∧ Stands b t s :=
  Run.runs_allowed (fun _ _ call h => step_serves hb h call) calls ⟨new_valid b, rfl⟩

/-- A B-tree never faults and answers as a sorted list does, with any `max_items`, any hints and any allocations that
    fail; after every run it is valid and holds what the list holds. -/
theorem runs_serve (compare : α → α → Ordering) [TransCmp compare] (maxItems : Nat) (calls : List (Call α)) :
    ∃ t rets s, Run.runs (step ⟨compare, normalizeMaxItems maxItems⟩) new calls = some (t, rets) ∧
      Run.Allowed (Serves compare) ([], false) calls rets s ∧ Valid ⟨compare, normalizeMaxItems maxItems⟩ t ∧
      s = (t.toList, t.oom) :=
  runs_stands (normalizeMaxItems_ok compare maxItems) calls

/-- Insertions by which nodes of three items are split until the tree has three levels. -/
def grow : List (Call Nat) :=
  (List.range 10).map (fun n => .set (fun _ => true) n (some fun _ => 9)) ++ [.load (fun _ => true) 10, .get 7 none]

/-- Deletions by which they are joined until a level goes. -/
def growAndShrink : List (Call Nat) := grow ++ [2, 5, 0, 8, 3].map (fun n => .delete n none) ++ [.popMin, .popMax]

theorem runs_serve_growAndShrink : ∃ t rets s,
    Run.runs (step ⟨compare, normalizeMaxItems 4⟩) new growAndShrink = some (t, rets) ∧
    Run.Allowed (Serves compare) ([], false) growAndShrink rets s ∧ Valid ⟨compare, normalizeMaxItems 4⟩ t ∧
    s = (t.toList, t.oom) :=
  runs_serve compare 4 growAndShrink

/-! ### Hints and shortcuts -/

/-- The calls as they are without hints, without the shortcut of `btree_load` and without those of the pops. -/
def plainStep (b : Settings α) (t : Btree α) : Call α → Option (Btree α × Ret α)
  | .set malloc item _ | .load malloc item => do
    let (t, prev, _) ← set0 b malloc t item none
    some (t, .item prev)
  | .get key _ => do
    let (item, _) ← get0 b t key none
    some (t, .item item)
  | .delete key _ => do
    let (t, prev, _) ← delete0 b t (.delKey key) none
    some (t, .item prev)
  | .popMin => do
    let (t, prev, _) ← delete0 b t .popFront none
    some (t, .item prev)
  | .popMax => do
    let (t, prev, _) ← delete0 b t .popBack none
    some (t, .item prev)
  | call => step b t call

theorem step_plain (hb : b.Ok) (ht : Valid b t) (call : Call α) : step b t call = plainStep b t call := by
  cases call with
  | set malloc item hint =>
    obtain ⟨t', prev, hset, -⟩ := set0_valid hb ht malloc item
    obtain ⟨hint₁, h₁⟩ := hset hint
    obtain ⟨hint₂, h₂⟩ := hset none
    simp [step, plainStep, h₁, h₂]
  | load malloc item =>
    rw [step, plainStep, load_eq_set0 hb ht]
    cases set0 b malloc t item none <;> rfl
  | get key hint =>
    obtain ⟨hint₁, h₁⟩ := get0_valid hb ht key hint
    obtain ⟨hint₂, h₂⟩ := get0_valid hb ht key none
    simp [step, plainStep, h₁, h₂]
  | delete key hint =>
    obtain ⟨t', prev, hdel, -⟩ := delete0_valid hb ht (.delKey key)
    obtain ⟨hint₁, h₁⟩ := hdel hint
    obtain ⟨hint₂, h₂⟩ := hdel none
    simp [step, plainStep, h₁, h₂]
  | popMin =>
    rw [step, plainStep, popMin, pop_eq_delete0 hb ht (popMinLoop_delete hb)]
    cases delete0 b t .popFront none <;> rfl
  | popMax =>
    rw [step, plainStep, popMax, pop_eq_delete0 hb ht (popMaxLoop_delete hb)]
    cases delete0 b t .popBack none <;> rfl
  | _ => rfl

/-- Hints and shortcuts change nothing in any run: the trees are the same, node for node, and so are the answers. -/
theorem runs_plain (compare : α → α → Ordering) [TransCmp compare] (maxItems : Nat) (calls : List (Call α)) :
    Run.runs (step ⟨compare, normalizeMaxItems maxItems⟩) new calls =
      Run.runs (plainStep ⟨compare, normalizeMaxItems maxItems⟩) new calls := by
  have hb := normalizeMaxItems_ok compare maxItems
  refine Run.runs_congr (fun t call ht => step_plain hb ht call) (fun t call t' r ht hstep => ?_) calls (new_valid _)
  obtain ⟨t₁, r₁, s, hstep₁, -, ht₁, -⟩ := step_serves hb ⟨ht, rfl⟩ call
  rw [hstep₁] at hstep
  obtain ⟨rfl, -⟩ := Prod.mk.inj (Option.some.inj hstep)
  exact ht₁

theorem runs_plain_growAndShrink : Run.runs (step ⟨compare, normalizeMaxItems 4⟩) new growAndShrink =
    Run.runs (plainStep ⟨compare, normalizeMaxItems 4⟩) new growAndShrink := runs_plain compare 4 growAndShrink

end Runs

/-! ### Height -/

/-- The items below a node of height `h`, from the least to the greatest number that fits its shape. -/
theorem length_toList (hb : b.Ok) : ∀ {h : Nat} {node : Node α}, node.Shape b h →
    (node.nitems + 1) * (b.minItems + 1) ^ h ≤ node.toList.length + 1 ∧
      node.toList.length + 1 ≤ (node.nitems + 1) * (b.maxItems + 1) ^ h
  | 0, .branch .., hn => hn.elim
  | _ + 1, .leaf _, hn => hn.elim
  | 0, .leaf items, _ => by simp [Node.nitems, Node.items]
  | h + 1, .branch items children, hn => by
    obtain ⟨-, hlen, hchildren⟩ := Node.shape_branch.mp hn
    have hsum : (Node.branch items children).toList.length + 1 = (children.map fun c => c.toList.length + 1).sum := by
      rw [Node.toList_branch, length_weave (by rw [List.length_map, hlen]), List.map_map]
      rfl
    have hcard : (children.map fun c => c.toList.length + 1).length = items.length + 1 := by rw [List.length_map, hlen]
    have hlow : ∀ n ∈ children.map fun c => c.toList.length + 1, (b.minItems + 1) ^ (h + 1) ≤ n := by
      rintro n hn
      obtain ⟨c, hc, rfl⟩ := List.mem_map.mp hn
      rw [pow_succ']
      exact (Nat.mul_le_mul_right _ (Nat.succ_le_succ (hchildren c hc).2)).trans (length_toList hb (hchildren c hc).1).1
    have hhigh : ∀ n ∈ children.map fun c => c.toList.length + 1, n ≤ (b.maxItems + 1) ^ (h + 1) := by
      rintro n hn
      obtain ⟨c, hc, rfl⟩ := List.mem_map.mp hn
      rw [pow_succ']
      exact (length_toList hb (hchildren c hc).1).2.trans
        (Nat.mul_le_mul_right _ (Nat.succ_le_succ (hchildren c hc).1.nitems_le))
    have hnitems : (Node.branch items children).nitems = items.length := rfl
    rw [hsum, hnitems]
    constructor
    · simpa [hcard] using List.card_nsmul_le_sum _ _ hlow
    · simpa [hcard] using List.sum_le_card_nsmul _ _ hhigh

/-- The height of a tree grows with the logarithm of the number of its items. -/
theorem Valid.height (hb : b.Ok) (ht : Valid b t) : t.count = 0 ∧ t.height = 0 ∨
    ∃ h, t.height = h + 1 ∧ 2 * (b.minItems + 1) ^ h ≤ t.count + 1 ∧ t.count + 1 ≤ (b.maxItems + 1) ^ (h + 1) := by
  rcases ht.cases with ht | ⟨root, h, ht, hshape, hpos, -⟩
  · exact .inl (by rw [ht]; exact ⟨rfl, rfl⟩)
  · obtain ⟨hlow, hhigh⟩ := length_toList hb hshape
    rw [ht]
    refine .inr ⟨h, rfl, (Nat.mul_le_mul_right _ (Nat.succ_le_succ hpos)).trans hlow, hhigh.trans ?_⟩
    rw [pow_succ']
    exact Nat.mul_le_mul_right _ (Nat.succ_le_succ hshape.nitems_le)

/-- After every run the tree is as high as the logarithm of the number of its items. -/
theorem runs_height (compare : α → α → Ordering) [TransCmp compare] (maxItems : Nat) {calls : List (Call α)}
    {rets : List (Ret α)} (hrun : Run.runs (step ⟨compare, normalizeMaxItems maxItems⟩) new calls = some (t, rets)) :
    t.count = 0 ∧ t.height = 0 ∨ ∃ h, t.height = h + 1 ∧
      2 * (normalizeMaxItems maxItems / 2 + 1) ^ h ≤ t.count + 1 ∧
      t.count + 1 ≤ (normalizeMaxItems maxItems + 1) ^ (h + 1) := by
  have hb := normalizeMaxItems_ok compare maxItems
  obtain ⟨t', rets', s, hrun', -, ht, -⟩ := runs_stands hb calls
  rw [hrun] at hrun'
  obtain ⟨rfl, -⟩ := Prod.mk.inj (Option.some.inj hrun')
  exact ht.height hb

theorem runs_height_growAndShrink : ∃ t rets,
    Run.runs (step ⟨compare, normalizeMaxItems 4⟩) new growAndShrink = some (t, rets) ∧
    (t.count = 0 ∧ t.height = 0 ∨ ∃ h, t.height = h + 1 ∧ 2 * (normalizeMaxItems 4 / 2 + 1) ^ h ≤ t.count + 1 ∧
      t.count + 1 ≤ (normalizeMaxItems 4 + 1) ^ (h + 1)) := by
  have hsome : (Run.runs (step ⟨compare, normalizeMaxItems 4⟩) new growAndShrink).isSome = true := by decide +kernel
  obtain ⟨⟨t, rets⟩, hrun⟩ := Option.isSome_iff_exists.mp hsome
  exact ⟨t, rets, hrun, runs_height compare 4 hrun⟩

/-- The heights before the deletions and after them. -/
example : [grow, growAndShrink].map (fun calls => (Run.runs (step ⟨compare, normalizeMaxItems 4⟩) new calls).map
    fun p => p.1.height) = [some 3, some 2] := by decide +kernel

end KvStore.Btree
