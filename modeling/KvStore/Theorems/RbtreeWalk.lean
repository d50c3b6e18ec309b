import KvStore.Theorems.Range
import KvStore.Theorems.RbtreeEngine

/-! The walk along the successors: from the smallest key on, `rbtree_successor` visits the nodes in the order of the
    tree, so the red-black tree reads its entries in the order of their keys. -/

namespace KvStore
open RedBlack FiniteMap

/-- Where a walk over the nodes starts; the sentinel when there are none. -/
def firstPtr (nil : Ptr) (es : List Cell) : Ptr := (es.map Cell.ptr).headD nil

section Walk
variable {T : Rbtree} {t : RBTree Cell} {ctx : Ctx Cell} {e : Cell} {xs ys : List Cell} {fuel : Nat}

/-- The way up: it ends at the first node that it reaches from the left. -/
theorem Rep.successorLoop (h : Rep T (plug ctx t)) (ht : t ≠ .nil) (hfuel : ctx.length < fuel) :
    rbtreeSuccessorLoop T fuel (ptrOf T.nil t) (ctxPtr T.nil ctx) = some (firstPtr T.nil ctx.after) := by
  induction ctx generalizing t fuel with
  | nil =>
    obtain ⟨fuel, rfl⟩ := Nat.exists_eq_succ_of_ne_zero (Nat.ne_zero_of_lt hfuel)
    exact if_pos rfl
  | cons g ctx ih =>
    obtain ⟨fuel, rfl⟩ := Nat.exists_eq_succ_of_ne_zero (Nat.ne_zero_of_lt hfuel)
    have hup : Rep T (plug ctx (.mk g.side g.color t g.item g.sibling)) := h
    have F := h.frame
    rw [ctxPtr_cons, rbtreeSuccessorLoop, if_neg hup.live_mk.1, F.right, F.parent]
    simp only [Option.bind_eq_bind, Option.bind_some]
    cases hs : g.side with
    | left =>
      have hne : ptrOf T.nil t ≠ ptrOf T.nil g.sibling := h.ptrOf_ne_sibling (Or.inl ht)
      rw [if_neg (by simpa [Side.pick] using hne)]
      simp [Ctx.after, hs, Side.pick, firstPtr]
    | right =>
      have hrec := ih hup RBTree.mk_ne_nil (Nat.lt_of_succ_lt_succ hfuel)
      rw [ptrOf_mk] at hrec
      rw [if_pos (by simp [Side.pick]), hrec]
      simp [Ctx.after, hs, Side.pick]

/-- `rbtree_successor` is the next node in order. -/
theorem Rep.next (h : Rep T t) (hlist : t.toList = xs ++ e :: ys) :
    rbtreeSuccessor T e.ptr = some (firstPtr T.nil ys) := by
  obtain ⟨ctx, c, l, r, rfl, rfl, rfl⟩ := exists_plug_of_toList hlist
  by_cases hr : r = .nil
  · subst hr
    have F := h.fields (s := .left)
    have hfuel : ctx.length < T.fuel := by
      have hlen := Ctx.length_le ctx (.node c l e .nil)
      have hlt := h.length_lt
      rw [Rbtree.fuel]
      omega
    have hloop : rbtreeSuccessorLoop T T.fuel e.ptr (ctxPtr T.nil ctx) = some (firstPtr T.nil ctx.after) :=
      h.successorLoop (by simp) hfuel
    rw [rbtreeSuccessor, F.parent, F.right]
    simp only [Option.bind_eq_bind, Option.bind_some]
    rw [if_neg (by simp [Side.pick]), hloop]
    rfl
  · obtain ⟨fs, c', y, f, hsucc, rfl, hbefore⟩ := h.successor hr
    have hr : (plug fs (.mk .left c' .nil y f)).toList = y :: (f.toList ++ fs.after) := by
      simp [toList_plug, hbefore, RBTree.mk_left, RBTree.toList]
    rw [hsucc, hr]
    rfl

theorem Rep.first (h : Rep T t) (ht : t ≠ .nil) : rbtreeMini T T.root = some (firstPtr T.nil t.toList) := by
  have hrep : Rep T (plug [] t) := h
  obtain ⟨fs, c, y, r, hmini, rfl, hbefore⟩ := hrep.miniLoop ht (Nat.lt_succ_of_lt h.length_lt)
  have hlist : (plug fs (.mk .left c .nil y r)).toList = y :: (r.toList ++ fs.after) := by
    simp [toList_plug, hbefore, RBTree.mk_left, RBTree.toList]
  rw [rbtreeMini, h.linked.root]
  rw [hlist]
  exact hmini

theorem Rep.cell (h : Rep T t) (he : e ∈ t.toList) :
    e.ptr ≠ T.nil ∧ T.key e.ptr = some e.key ∧ T.value e.ptr = some e.value ∧ T.timestamp e.ptr = some e.timestamp := by
  obtain ⟨xs, ys, hlist⟩ := List.append_of_mem he
  obtain ⟨ctx, c, l, r, rfl, -, -⟩ := exists_plug_of_toList hlist
  have F := h.fields (s := .left)
  exact ⟨(h.live_mk (s := .left)).1, F.key, F.value, F.timestamp⟩

/-- A walk over a part of the nodes does not run out of fuel. -/
theorem Rep.suffix_lt_fuel (h : Rep T t) (hlist : t.toList = xs ++ ys) : ys.length < T.fuel := by
  have hlen := congrArg List.length hlist
  have hlt := h.length_lt
  rw [List.length_append] at hlen
  rw [Rbtree.fuel]
  omega

end Walk

/-! ### The loops -/

section Loops
variable {T : Rbtree} {t : RBTree Cell} {ctx : Ctx Cell} {xs ys : List Cell} {es : List (CString × Entry)} {fuel : Nat}
  {copy : List KvsItem → CString → CharPtr → UInt64 → Option Copied} {stop : CString → Bool} {items : List KvsItem}
  {a b : CString}

/-- The copying loop from the nodes `ys` on, for at most `n` items. -/
theorem Rep.copyLoop {size : Int} {n : Nat} {string : CString → Prop} [DecidablePred string]
    (hc : Copies copy size string) (h : Rep T t) (hlist : t.toList = xs ++ ys)
    (hes : ys.map Cell.entry = es.map storedPair) (hsize : (items.length + n : Int) ≤ size) :
    rbtreeCopyLoop copy stop T n (firstPtr T.nil ys) items =
      copyAll string items ((es.take n).takeWhile fun e => !stop e.1) := by
  induction n generalizing xs ys es items with
  | zero => simp [rbtreeCopyLoop]
  | succ n ih =>
    cases ys with
    | nil =>
      rw [List.map_nil, eq_comm, List.map_eq_nil_iff] at hes
      rw [hes, rbtreeCopyLoop, if_pos (by rfl)]
      simp
    | cons c ys =>
      cases es with
      | nil => cases hes
      | cons e es =>
        obtain ⟨hce, hes⟩ := List.cons.inj hes
        obtain ⟨hk, hv⟩ := Prod.mk.inj hce
        obtain ⟨hv, ht⟩ := Prod.mk.inj hv
        obtain ⟨hne, hkey, hvalue, htime⟩ := h.cell (e := c) (by simp [hlist])
        have hnext := h.next hlist
        have hfirst : firstPtr T.nil (c :: ys) = c.ptr := rfl
        rw [hfirst, rbtreeCopyLoop, if_neg hne, hkey, hvalue, htime, hnext, hk, hv, ht, List.take_succ_cons]
        simp only [Option.bind_eq_bind, Option.bind_some]
        by_cases hs : stop e.1 = true
        · rw [if_pos hs, List.takeWhile_cons_of_neg (by simpa using hs), copyAll_nil]
        · simp only [Nat.cast_add, Nat.cast_one] at hsize
          have hrest : t.toList = (xs ++ [c]) ++ ys := by rw [hlist, List.append_assoc]; rfl
          have hlen : ((items ++ [item e]).length + n : Int) ≤ size := by
            simp only [List.length_append, List.length_singleton, Nat.cast_add, Nat.cast_one]
            omega
          rw [if_neg hs, List.takeWhile_cons_of_pos (by simpa using hs)]
          exact hc.bind e (by omega) (ih hrest hes hlen)

/-- The descent to the first key that is not before `a`. -/
theorem Rep.startLoop {start : Ptr} (h : Rep T (plug ctx t)) (hs : Sorted Cell.key t.toList)
    (hfuel : t.toList.length < fuel) : rbtreeStartLoop T a fuel (ptrOf T.nil t) start =
      some (firstPtr start (t.toList.dropWhile fun e => decide (e.key < a))) := by
  refine Rep.downward (P := fun fuel _ t => ∀ {start}, Sorted Cell.key t.toList → rbtreeStartLoop T a fuel
      (ptrOf T.nil t) start = some (firstPtr start (t.toList.dropWhile fun e => decide (e.key < a))))
    (fun fuel ctx start _ => ?_) (fun fuel ctx c l e r _ h ihl ihr start hs => ?_) h hfuel hs
  · simp [rbtreeStartLoop, RBTree.toList, firstPtr]
  · have F := h.fields (s := .left)
    obtain ⟨hlsort, hrsort, -⟩ := List.pairwise_append.mp hs
    have hl : rbtreeStartLoop T a fuel (ptrOf T.nil l) e.ptr = _ := ihl hlsort
    have hr : rbtreeStartLoop T a fuel (ptrOf T.nil r) start = _ := ihr (List.pairwise_cons.mp hrsort).2
    rw [ptrOf_node, rbtreeStartLoop, if_pos (h.live_mk (s := .left)).1, F.key, F.left, F.right]
    simp only [Option.bind_eq_bind, Option.bind_some, ge_iff_le, strcmp_nonneg, RBTree.toList]
    by_cases hae : a ≤ e.key
    · rw [if_pos hae]
      refine hl.trans ?_
      rw [List.dropWhile_append]
      by_cases hnil : l.toList.dropWhile (fun e => decide (e.key < a)) = []
      · simp [hnil, firstPtr, not_lt.mpr hae]
      · obtain ⟨d, ds, hd⟩ := List.exists_cons_of_ne_nil hnil
        simp [hd, firstPtr]
    · rw [if_neg hae]
      refine hr.trans ?_
      have hlt : e.key < a := not_le.mp hae
      have hall : ∀ d ∈ l.toList, decide (d.key < a) = true := fun d hd => by
        simpa using (hs.node.1 d hd).trans hlt
      rw [List.dropWhile_append_of_pos hall, List.dropWhile_cons_of_pos (by simpa using hlt)]

/-- A range starts at the first node whose key is not before `a`. -/
theorem Rep.start (h : Rep T t) (hs : Sorted Cell.key t.toList) (a : CString) : rbtreeStartLoop T a T.fuel T.root T.nil =
    some (firstPtr T.nil (t.toList.dropWhile fun e => decide (e.key < a))) := by
  have hroot : Rep T (plug [] t) := h
  rw [h.linked.root]
  exact hroot.startLoop hs (Nat.lt_succ_of_lt h.length_lt)

theorem Rep.matchLoop {n : Nat} (h : Rep T t) (hlist : t.toList = xs ++ ys) (hfuel : ys.length < fuel) :
    rbtreeMatchLoop T b fuel (firstPtr T.nil ys) n =
      some (n + (ys.takeWhile fun e => decide (e.key ≤ b)).length) := by
  induction ys generalizing xs n fuel with
  | nil =>
    obtain ⟨fuel, rfl⟩ := Nat.exists_eq_succ_of_ne_zero (Nat.ne_zero_of_lt hfuel)
    exact if_neg (not_not.mpr rfl)
  | cons c ys ih =>
    obtain ⟨fuel, rfl⟩ := Nat.exists_eq_succ_of_ne_zero (Nat.ne_zero_of_lt hfuel)
    obtain ⟨hne, hkey, -, -⟩ := h.cell (e := c) (by simp [hlist])
    have hnext := h.next hlist
    have hrest : t.toList = (xs ++ [c]) ++ ys := by rw [hlist, List.append_assoc]; rfl
    have hrec := ih (n := n + 1) hrest (Nat.lt_of_succ_lt_succ hfuel)
    have hfirst : firstPtr T.nil (c :: ys) = c.ptr := rfl
    rw [hfirst, rbtreeMatchLoop, if_pos hne, hkey, hnext]
    simp only [Option.bind_eq_bind, Option.bind_some, strcmp_nonpos]
    by_cases hcb : c.key ≤ b
    · rw [if_pos hcb, hrec, List.takeWhile_cons_of_pos (by simpa using hcb), List.length_cons]
      congr 1
      omega
    · rw [if_neg hcb, List.takeWhile_cons_of_neg (by simpa using hcb)]
      rfl

end Loops

/-- In a list of increasing keys a range is a piece of the list. -/
theorem Increasing.filter_inRange {es : List (CString × Entry)} (h : Increasing es) (a b : CString) :
    es.filter (fun e => inRange a b e.1) =
      (es.dropWhile fun e => decide (e.1 < a)).takeWhile fun e => decide (e.1 ≤ b) := by
  induction es with
  | nil => rfl
  | cons e es ih =>
    obtain ⟨he, hes⟩ := List.pairwise_cons.mp h
    by_cases hlt : e.1 < a
    · have hout : ¬inRange a b e.1 = true := fun hin => absurd (inRange_eq_true.mp hin).1 (not_le.mpr hlt)
      rw [List.filter_cons_of_neg (by simpa using hout), List.dropWhile_cons_of_pos (by simpa using hlt), ih hes]
    · rw [List.dropWhile_cons_of_neg (by simpa using hlt)]
      -- from here on every key is behind `a`
      have hae : ∀ d ∈ es, a ≤ d.1 := fun d hd => (not_lt.mp hlt).trans (he d hd).le
      have hdrop : es.dropWhile (fun e => decide (e.1 < a)) = es := by
        cases es with
        | nil => rfl
        | cons d es => exact List.dropWhile_cons_of_neg (by simpa using hae d List.mem_cons_self)
      by_cases hle : e.1 ≤ b
      · have hin : inRange a b e.1 = true := inRange_eq_true.mpr ⟨not_lt.mp hlt, hle⟩
        rw [List.filter_cons_of_pos (by simpa using hin), List.takeWhile_cons_of_pos (by simpa using hle), ih hes,
          hdrop]
      · have hnone : (e :: es).filter (fun e => inRange a b e.1) = [] := by
          rw [List.filter_eq_nil_iff]
          intro d hd hin
          refine hle (le_trans ?_ (inRange_eq_true.mp hin).2)
          rcases List.mem_cons.mp hd with rfl | hd
          · exact le_rfl
          · exact (he d hd).le
        rw [hnone, List.takeWhile_cons_of_neg (by simpa using hle)]

section Calls
variable {env : Env} {T : Rbtree} {m : Map CString Entry} {a b : CString}

theorem RbtreeHolds.nodes (h : RbtreeHolds T m) : ∃ t es, Rep T t ∧ Sorted Cell.key t.toList ∧
    t.toList.map Cell.entry = es.map storedPair ∧ Lists es m ∧ Increasing es := by
  obtain ⟨t, hinv, hl⟩ := h
  obtain ⟨es, hes, hl⟩ := exists_storedPair hl
  have hkeys := congrArg (List.map Prod.fst) hes
  rw [List.map_map, List.map_map] at hkeys
  have hlt : (es.map Prod.fst).Pairwise (· < ·) := by
    rw [show es.map Prod.fst = t.toList.map Cell.key from hkeys.symm]
    exact List.pairwise_map.mpr hinv.sorted
  exact ⟨t, es, hinv.rep, hinv.sorted, hes, hl, List.pairwise_map.mp hlt⟩

theorem RbtreeHolds.getAll (h : RbtreeHolds T m) (henv : env.Allocates) : ∃ es, Lists es m ∧
    kvsRbtreeGetAll env T = if ∀ e ∈ es, EntryOf Long e then some (0, es.map item) else none := by
  obtain ⟨t, es, hrep, -, hes, hl, -⟩ := h.nodes
  refine ⟨es, hl, ?_⟩
  have hlen : t.toList.length = es.length := by simpa using congrArg List.length hes
  have hcount : kvsRbtreeCount T = some (es.length : Int) := hlen ▸ Rep.count (t := t) hrep
  by_cases hnil : es = []
  · simp [kvsRbtreeGetAll, hcount, hnil]
  · have ht : t ≠ .nil := by
      rintro rfl
      exact hnil (List.map_eq_nil_iff.mp hes.symm)
    have hcopies := copies_copyItem clearPointer_copies henv 1 (-3) (-4) es.length
    have hloop := @Rep.copyLoop T t [] _ es _ (fun _ => false) [] _ es.length Long _ hcopies hrep rfl hes (by simp)
    have h0 : env.alloc 0 = true := henv 0
    have hpos : es.length ≠ 0 := fun h => hnil (List.length_eq_zero_iff.mp h)
    have hall : (es.take es.length).takeWhile (fun _ => !false) = es := by simp
    rw [hall] at hloop
    simp only [kvsRbtreeGetAll, hcount, Option.bind_eq_bind, Option.bind_some, hrep.first ht, Int.toNat_natCast, hloop,
      Nat.cast_eq_zero, hpos, h0, Bool.true_eq_false, if_false, copyAll_bind, List.length_map, lt_irrefl]

/-- The descent of a range ends at the first of the nodes from which on the keys are not before `a`. -/
theorem RbtreeHolds.start (h : RbtreeHolds T m) (a : CString) : ∃ t xs ys, ∃ rest : List (CString × Entry),
    Rep T t ∧ t.toList = xs ++ ys ∧ ys.map Cell.entry = rest.map storedPair ∧
      rbtreeStartLoop T a T.fuel T.root T.nil = some (firstPtr T.nil ys) ∧
      ∀ b, Lists (rest.takeWhile fun e => decide (e.1 ≤ b)) (between m a b) ∧
        Increasing (rest.takeWhile fun e => decide (e.1 ≤ b)) := by
  obtain ⟨t, es, hrep, hs, hes, hl, hinc⟩ := h.nodes
  refine ⟨t, t.toList.takeWhile fun e => decide (e.key < a), t.toList.dropWhile fun e => decide (e.key < a),
    es.dropWhile fun e => decide (e.1 < a), hrep, List.takeWhile_append_dropWhile.symm, ?_, ?_, fun b => ?_⟩
  · have h := congrArg (List.dropWhile fun e => decide (e.1 < a)) hes
    rw [List.dropWhile_map, List.dropWhile_map] at h
    exact h
  · exact hrep.start hs a
  · rw [← hinc.filter_inRange]
    exact ⟨lists_between hl a b, hinc.sublist List.filter_sublist⟩

theorem RbtreeHolds.range (h : RbtreeHolds T m) (henv : env.Allocates) (hab : a ≤ b) :
    ∃ es n, Lists es (between m a b) ∧ Increasing es ∧ 0 < n ∧ kvsRbtreeRange env T a b =
      if ∀ e ∈ es, EntryOf Long e then some (if es = [] then n else 0, es.map item) else none := by
  obtain ⟨t, xs, ys, rest, hrep, hlist, hpairs, hstart, hbetween⟩ := h.start a
  obtain ⟨hl, hinc⟩ := hbetween b
  have hrev : ¬strcmp a b > 0 := by simpa using hab
  cases ys with
  | nil =>
    rw [List.map_nil, eq_comm, List.map_eq_nil_iff] at hpairs
    refine ⟨_, 1, hl, hinc, Int.one_pos, ?_⟩
    simp [kvsRbtreeRange, hab, hstart, hpairs, firstPtr]
  | cons c ys =>
    refine ⟨_, 2, hl, hinc, by decide, ?_⟩
    set selected := rest.takeWhile fun e => decide (e.1 ≤ b) with hselected
    have hne : c.ptr ≠ T.nil := (hrep.cell (e := c) (by simp [hlist])).1
    have hcount : ((c :: ys).takeWhile fun e => decide (e.key ≤ b)).length = selected.length := by
      have h := congrArg (fun l => (l.takeWhile fun e => decide (e.1 ≤ b)).length) hpairs
      simp only [List.takeWhile_map, List.length_map] at h
      exact h
    have hmatch := hrep.matchLoop (b := b) (n := 0) hlist (hrep.suffix_lt_fuel hlist)
    rw [hcount, Nat.zero_add] at hmatch
    have hcopies := copies_copyItem clearPointer_copies henv 1 (-2) (-3) selected.length
    have hloop := @Rep.copyLoop T t xs _ rest _ (fun key => decide (strcmp key b > 0)) [] selected.length
      selected.length Long _ hcopies hrep hlist hpairs (by simp)
    -- the items that are copied are those that were counted
    have htake : (rest.take selected.length).takeWhile (fun e => !decide (strcmp e.1 b > 0)) = selected := by
      rw [← List.prefix_iff_eq_take.mp (List.takeWhile_prefix _)]
      refine List.takeWhile_eq_self_iff.mpr fun e he => ?_
      simpa [hselected] using List.mem_takeWhile_imp he
    rw [htake] at hloop
    have h0 : env.alloc 0 = true := henv 0
    have hfirst : firstPtr T.nil (c :: ys) = c.ptr := rfl
    rw [hfirst] at hstart hmatch hloop
    simp only [kvsRbtreeRange, hrev, if_false, hstart, Option.bind_eq_bind, Option.bind_some, hne, hmatch, hloop,
      List.length_eq_zero_iff, h0, reduceCtorEq, copyAll_bind, finishItems]
    by_cases hnil : selected = [] <;> simp [hnil]

theorem rbtreeScanLaws : rbtreeScan.Laws RbtreeHolds Long where
  getAll h henv := h.getAll henv
  reversed h := by simp [rbtreeScan, kvsRbtreeRange, h]
  range h henv hab := h.range henv hab

end Calls

end KvStore
