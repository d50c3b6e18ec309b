import KvStore.MapSpec
import KvStore.Theorems.RbtreeDelete
import KvStore.Theorems.RbtreeInsert

/-! The calls of the red-black tree engine keep the tree a red-black search tree, and on the entries that it
    lists they do what the map machine does. -/

namespace KvStore
open RedBlack FiniteMap

/-- The memory holds `t`, a red-black tree with increasing keys. -/
structure RbtreeInv (T : Rbtree) (t : RBTree Cell) : Prop where
  rep : Rep T t
  valid : t.Valid
  sorted : Sorted Cell.key t.toList

def Cell.entry (e : Cell) : CString × CharPtr × UInt64 := (e.key, e.value, e.timestamp)

/-- The store holds the map `m`: its nodes are the entries of `m`, each once. -/
def RbtreeHolds (T : Rbtree) (m : Map CString Entry) : Prop :=
  ∃ t, RbtreeInv T t ∧ Lists (t.toList.map Cell.entry) (m.mapVal Entry.stored)

def rbtreeAnswers : Answers where
  full _ := none
  modifyAbsent _ := -2
  deleteAbsent := -2
  existAbsent := -2

section Calls
variable {T : Rbtree} {t : RBTree Cell} {m : Map CString Entry} {k v : CString} {ctx : Ctx Cell} {c : Color}
  {l r : RBTree Cell} {e : Cell} {env : Env} {ts : UInt64}

/-- The two outcomes of `rbtree_search`. -/
theorem RbtreeInv.search (h : RbtreeInv T t) (k : CString) :
    (rbtreeSearch T k = some T.nil ∧ ∀ e ∈ t.toList, e.key ≠ k) ∨
    ∃ ctx c l e r, t = plug ctx (.node c l e r) ∧ e.key = k ∧ rbtreeSearch T k = some e.ptr ∧ e.ptr ≠ T.nil := by
  have hrep : Rep T (plug [] t) := h.rep
  rcases h.sorted.descend k with ⟨ctx, hd, rfl, haround⟩ | ⟨ctx, c, l, e, r, hd, rfl, he⟩
  · refine Or.inl ⟨?_, haround.not_mem⟩
    rw [hrep.search, hd]
    rfl
  · refine Or.inr ⟨ctx, c, l, e, r, rfl, he, ?_, (h.rep.live_mk (s := .left)).1⟩
    rw [hrep.search, hd]
    rfl

/-- A key of the tree finds its own node. -/
theorem RbtreeInv.search_mem (h : RbtreeInv T t) (he : e ∈ t.toList) :
    ∃ ctx c l r, t = plug ctx (.node c l e r) ∧ rbtreeSearch T e.key = some e.ptr ∧ e.ptr ≠ T.nil := by
  rcases h.search e.key with ⟨-, hk⟩ | ⟨ctx, c, l, a, r, rfl, ha, hs, hne⟩
  · exact absurd rfl (hk e he)
  · have hmem : a ∈ (plug ctx (.node c l a r)).toList := by simp [toList_plug, RBTree.toList]
    have hnd : ((plug ctx (.node c l a r)).toList.map Cell.key).Nodup :=
      List.pairwise_map.mpr (h.sorted.imp fun hlt => hlt.ne)
    obtain rfl : a = e := List.inj_on_of_nodup_map hnd hmem he ha
    exact ⟨ctx, c, l, r, rfl, hs, hne⟩

theorem RbtreeInv.get_mem (h : RbtreeInv T t) (he : e ∈ t.toList) : kvsRbtreeGet T e.key = some e.value := by
  obtain ⟨ctx, c, l, r, rfl, hs, hne⟩ := h.search_mem he
  have F := h.rep.fields (s := .left)
  simp only [kvsRbtreeGet, Option.bind_eq_bind]
  rw [hs, Option.bind_some, if_neg hne, F.value]

theorem RbtreeInv.search_absent (h : RbtreeInv T t) (hk : ∀ e ∈ t.toList, e.key ≠ k) :
    rbtreeSearch T k = some T.nil := by
  rcases h.search k with ⟨hs, -⟩ | ⟨ctx, c, l, e, r, rfl, he, -⟩
  · exact hs
  · exact absurd he (hk e (by simp [toList_plug, RBTree.toList]))

theorem toList_plug_node (ctx : Ctx Cell) (c : Color) (l r : RBTree Cell) (e : Cell) :
    (plug ctx (.node c l e r)).toList = (ctx.before ++ l.toList) ++ e :: (r.toList ++ ctx.after) := by
  simp [toList_plug, RBTree.toList]

/-- The entry of a node is that of its key in the map. -/
theorem lists_entry (hl : Lists ((plug ctx (.node c l e r)).toList.map Cell.entry) (m.mapVal Entry.stored)) :
    ∃ a, m e.key = some a ∧ e.value = .str a.value ∧ e.timestamp = a.timestamp := by
  rw [toList_plug_node, List.map_append, List.map_cons] at hl
  have := hl.apply_middle
  simp only [Map.mapVal_apply, Option.map_eq_some_iff] at this
  obtain ⟨a, ha, hs⟩ := this
  obtain ⟨hv, ht⟩ := Prod.mk.inj hs
  exact ⟨a, ha, hv.symm, ht.symm⟩

/-- A key of the map finds its node. -/
theorem RbtreeHolds.find_present {a : Entry} (h : RbtreeHolds T m) (hm : m k = some a) :
    ∃ ctx c l e r, RbtreeInv T (plug ctx (.node c l e r)) ∧
      Lists ((plug ctx (.node c l e r)).toList.map Cell.entry) (m.mapVal Entry.stored) ∧ e.key = k ∧
      e.value = .str a.value ∧ e.timestamp = a.timestamp ∧ rbtreeSearch T k = some e.ptr ∧ e.ptr ≠ T.nil := by
  obtain ⟨t, hi, hl⟩ := h
  rcases hi.search k with ⟨-, hk⟩ | ⟨ctx, c, l, e, r, rfl, rfl, hs, hne⟩
  · have hmem : (k, a.stored) ∈ t.toList.map Cell.entry := (hl.mem k a.stored).mpr (by simp [hm])
    obtain ⟨e, he, heq⟩ := List.mem_map.mp hmem
    exact absurd (congrArg Prod.fst heq) (hk e he)
  · obtain ⟨a', ha, hv, hts⟩ := lists_entry hl
    rw [hm, Option.some.injEq] at ha
    subst ha
    exact ⟨ctx, c, l, e, r, hi, hl, rfl, hv, hts, hs, hne⟩

theorem RbtreeHolds.find_absent (h : RbtreeHolds T m) (hm : m k = none) : rbtreeSearch T k = some T.nil := by
  obtain ⟨t, hi, hl⟩ := h
  refine hi.search_absent fun e he heq => ?_
  have hnone : (m.mapVal Entry.stored) k = none := by simp [hm]
  exact hl.apply_eq_none.mp hnone (List.mem_map.mpr ⟨e.entry, List.mem_map_of_mem he, heq⟩)

/-! ### The empty store -/

theorem rbtreeCreate_inv : RbtreeInv kvsRbtreeCreate .nil where
  rep := ⟨⟨trivial, rfl⟩, by simp [addrs, RBTree.toList], by simp [addrs, RBTree.toList], rfl, by decide⟩
  valid := ⟨rfl, 0, rfl⟩
  sorted := List.Pairwise.nil

theorem rbtreeCreate_holds : RbtreeHolds kvsRbtreeCreate Map.empty := ⟨.nil, rbtreeCreate_inv, Lists.nil⟩

/-! ### Reads -/

theorem RbtreeHolds.get_present {a : Entry} (h : RbtreeHolds T m) (hm : m k = some a) :
    kvsRbtreeGet T k = some (.str a.value) := by
  obtain ⟨ctx, c, l, e, r, hi, -, -, hv, -, hs, hne⟩ := h.find_present hm
  have F := hi.rep.fields (s := .left)
  simp only [kvsRbtreeGet, Option.bind_eq_bind]
  rw [hs, Option.bind_some, if_neg hne, F.value, hv]

theorem RbtreeHolds.get_absent (h : RbtreeHolds T m) (hm : m k = none) : kvsRbtreeGet T k = some .null := by
  simp [kvsRbtreeGet, h.find_absent hm]

theorem RbtreeHolds.exist_present {a : Entry} (h : RbtreeHolds T m) (hm : m k = some a) :
    kvsRbtreeExist T k = some 0 := by
  obtain ⟨ctx, c, l, e, r, -, -, -, -, -, hs, hne⟩ := h.find_present hm
  simp [kvsRbtreeExist, hs, hne]

theorem RbtreeHolds.exist_absent (h : RbtreeHolds T m) (hm : m k = none) : kvsRbtreeExist T k = some (-2) := by
  simp [kvsRbtreeExist, h.find_absent hm]

theorem RbtreeHolds.getTimestamp {a : Entry} (h : RbtreeHolds T m) (hm : m k = some a) :
    kvsRbtreeGetTimestamp T k = some a.timestamp := by
  obtain ⟨ctx, c, l, e, r, hi, -, -, -, hts, hs, -⟩ := h.find_present hm
  have F := hi.rep.fields (s := .left)
  simp only [kvsRbtreeGetTimestamp, Option.bind_eq_bind]
  rw [hs, Option.bind_some, F.timestamp, hts]

theorem RbtreeHolds.count (h : RbtreeHolds T m) : kvsRbtreeCount T = some (m.size : Int) := by
  obtain ⟨t, hi, hl⟩ := h
  have hrep : Rep T (plug [] t) := hi.rep
  rw [hrep.count, ← Map.size_mapVal Entry.stored, hl.size, List.length_map]

/-! ### Updates -/

theorem sorted_setItem {e' : Cell} (h : Sorted Cell.key (plug ctx (.node c l e r)).toList) (he : e'.key = e.key) :
    Sorted Cell.key (plug ctx (.node c l e' r)).toList := by
  rw [toList_plug_node, Sorted, ← List.pairwise_map, List.map_append, List.map_cons] at h ⊢
  rw [he]
  exact h

/-- Without an allocation the value of the node becomes a null pointer. -/
theorem RbtreeInv.modify_failed (h : RbtreeInv T (plug ctx (.node c l e r))) (hs : rbtreeSearch T k = some e.ptr)
    (hne : e.ptr ≠ T.nil) (v : CString) (ts : UInt64) (h₀ : env.alloc 0 = false) : ∃ T',
      kvsRbtreeModifyWithTimestamp env T k v ts = some (T', -3) ∧
      RbtreeInv T' (plug ctx (.node c l { e with value := .null } r)) := by
  have F := h.rep.fields (s := .left)
  have h₁ := h.rep.setItem (s := .left) (e := { e with value := .null }) rfl
  refine ⟨_, ?_, ⟨h₁, h.valid.setItem (s := .left), sorted_setItem h.sorted rfl⟩⟩
  simp only [kvsRbtreeModifyWithTimestamp, Option.bind_eq_bind]
  rw [hs, Option.bind_some, if_neg hne, F.value, Option.bind_some, if_pos h₀, F.setValue, Option.bind_some]

/-- Overwriting value and timestamp of a node. -/
theorem RbtreeInv.modify (h : RbtreeInv T (plug ctx (.node c l e r))) (hs : rbtreeSearch T k = some e.ptr)
    (hne : e.ptr ≠ T.nil) (env : Env) (v : CString) (ts : UInt64) : ∃ T' e' n,
      kvsRbtreeModifyWithTimestamp env T k v ts = some (T', n) ∧ RbtreeInv T' (plug ctx (.node c l e' r)) ∧
      (env.alloc 0 = true → e' = { e with value := .str v, timestamp := ts } ∧ n = 0) := by
  have F := h.rep.fields (s := .left)
  cases h₀ : env.alloc 0 with
  | false =>
    obtain ⟨T', hmodify, h'⟩ := h.modify_failed hs hne v ts h₀
    exact ⟨T', _, -3, hmodify, h', by simp⟩
  | true =>
    have h₁ := h.rep.setItem (s := .left) (e := { e with value := .str v }) rfl
    have F₁ := h₁.fields
    have h₂ := h₁.setItem (e := { e with value := .str v, timestamp := ts }) rfl
    refine ⟨_, _, 0, ?_, ⟨h₂, h.valid.setItem (s := .left), sorted_setItem h.sorted rfl⟩, by simp⟩
    simp only [kvsRbtreeModifyWithTimestamp, Option.bind_eq_bind]
    rw [hs, Option.bind_some, if_neg hne, F.value, Option.bind_some, if_neg (by simp [h₀]), F.setValue,
      Option.bind_some, F₁.setTimestamp, Option.bind_some]

theorem RbtreeHolds.modify_present {a : Entry} (h : RbtreeHolds T m) (henv : env.Allocates) (hm : m k = some a) :
    ∃ T', kvsRbtreeModifyWithTimestamp env T k v ts = some (T', 0) ∧ RbtreeHolds T' (m.insert k ⟨v, ts⟩) := by
  obtain ⟨ctx, c, l, e, r, hi, hl, rfl, -, -, hs, hne⟩ := h.find_present hm
  obtain ⟨T', e', n, hmodify, h', he⟩ := hi.modify hs hne env v ts
  obtain ⟨rfl, rfl⟩ := he (henv 0)
  refine ⟨T', hmodify, _, h', ?_⟩
  rw [toList_plug_node, List.map_append, List.map_cons] at hl
  rw [toList_plug_node, List.map_append, List.map_cons, Map.mapVal_insert]
  exact hl.update

theorem RbtreeHolds.modify_absent (h : RbtreeHolds T m) (hm : m k = none) :
    kvsRbtreeModifyWithTimestamp env T k v ts = some (T, -2) := by
  simp [kvsRbtreeModifyWithTimestamp, h.find_absent hm]

theorem RbtreeHolds.set_present {a : Entry} (h : RbtreeHolds T m) (hm : m k = some a) :
    kvsRbtreeSetWithTimestamp env T k v ts = some (T, 1) := by
  simp [kvsRbtreeSetWithTimestamp, h.get_present hm]

theorem RbtreeInv.next_out (h : RbtreeInv T t) : T.next ∉ addrs t := fun hm =>
  absurd (h.rep.live _ hm).2 (Nat.lt_irrefl _)

theorem RbtreeInv.next_ne_nil (h : RbtreeInv T t) : T.next ≠ T.nil := h.rep.nilLt.ne'

/-- An allocated node does not belong to the tree yet. -/
theorem RbtreeInv.malloc (h : RbtreeInv T t) : Rep T.malloc.1 t := by
  have hput : Rep (T.put T.next .fresh) t := h.rep.put_out h.next_out h.next_ne_nil
  exact ⟨⟨hput.linked.1.congr rfl fun _ _ => rfl, hput.linked.2⟩, hput.nodup,
    fun p hp => ⟨(hput.live p hp).1, Nat.lt_succ_of_lt (hput.live p hp).2⟩, hput.sentinel,
    Nat.lt_succ_of_lt hput.nilLt⟩

theorem malloc_mem : T.malloc.1.mem T.next = some .fresh := put_self

/-- Without the allocation for its value, the new node is left behind with the key. -/
theorem RbtreeInv.filled {T₁ : Rbtree} (h : RbtreeInv T t) (hT₁ : T.malloc.1.setKey T.next k = some T₁) : Rep T₁ t := by
  have hkey : T.malloc.1.setKey T.next k = some _ := update_eq malloc_mem _
  rw [hkey] at hT₁
  cases hT₁
  exact h.malloc.put_out h.next_out h.next_ne_nil

/-- A new node for an entry, allocated and filled. -/
theorem RbtreeInv.alloc (h : RbtreeInv T t) (k v : CString) (ts : UInt64) :
    ∃ T₁ T₂ T₃, T.malloc.1.setKey T.next k = some T₁ ∧ T₁.setValue T.next (.str v) = some T₂ ∧
      T₂.setTimestamp T.next ts = some T₃ ∧ Rep T₃ t ∧ Spare T₃ t ⟨T.next, k, .str v, ts⟩ := by
  have hout := h.next_out
  have hnil := h.next_ne_nil
  refine ⟨_, _, _, update_eq malloc_mem _, update_eq put_self _, update_eq put_self _, ?_, hout, ⟨hnil, ?_⟩, ?_⟩
  · exact ((h.malloc.put_out hout hnil).put_out hout hnil).put_out hout hnil
  · exact Nat.lt_succ_self _
  · exact ⟨_, put_self, rfl, rfl, rfl⟩

/-- A `set` that returns has left the tree as it was, or put a node into it. The node of a key that is in the tree
    without a value is not put there. -/
theorem RbtreeInv.set {T' : Rbtree} {n : Int} (h : RbtreeInv T t)
    (hs : kvsRbtreeSetWithTimestamp env T k v ts = some (T', n)) : n ≠ 0 ∧ RbtreeInv T' t ∨
      n = 0 ∧ kvsRbtreeGet T k = some .null ∧ ((∃ e ∈ t.toList, e.key = k) ∧ RbtreeInv T' t ∨
        ∃ t' l₁ l₂ p, (∀ e ∈ t.toList, e.key ≠ k) ∧ RbtreeInv T' t' ∧ t.toList = l₁ ++ l₂ ∧
          t'.toList = l₁ ++ ⟨p, k, .str v, ts⟩ :: l₂) := by
  obtain ⟨T₁, T₂, T₃, hT₁, hT₂, hT₃, h₃, hspare⟩ := h.alloc k v ts
  have hmalloc : T.malloc = (T.malloc.1, T.next) := rfl
  simp only [kvsRbtreeSetWithTimestamp, Option.bind_eq_bind, Option.bind_eq_some_iff] at hs
  obtain ⟨oldValue, hget, hs⟩ := hs
  split at hs
  · cases hs
    exact Or.inl ⟨by decide, h⟩
  next hnull =>
    rw [not_not] at hnull
    subst hnull
    split at hs
    · cases hs
    rw [hmalloc] at hs
    simp only at hs
    split at hs
    · cases hs
      exact Or.inl ⟨by decide, h.malloc, h.valid, h.sorted⟩
    simp only [hT₁, Option.bind_some] at hs
    split at hs
    · cases hs
      exact Or.inl ⟨by decide, h.filled hT₁, h.valid, h.sorted⟩
    simp only [hT₂, hT₃, Option.bind_some] at hs
    refine Or.inr ?_
    by_cases hk : ∃ e ∈ t.toList, e.key = k
    · have hinsert : rbtreeInsert T₃ T.next = some T₃ := h₃.insert_present hspare h.sorted hk
      rw [hinsert, Option.bind_some] at hs
      cases hs
      exact ⟨rfl, hget, Or.inl ⟨hk, h₃, h.valid, h.sorted⟩⟩
    · have hk : ∀ e ∈ t.toList, e.key ≠ k := fun e he hek => hk ⟨e, he, hek⟩
      obtain ⟨T₄, t', l₁, l₂, hT₄, h₄, hv₄, hs₄, hlist, hlist', -⟩ := h₃.insert hspare h.valid h.sorted hk
      have hinsert : rbtreeInsert T₃ T.next = some T₄ := hT₄
      rw [hinsert, Option.bind_some] at hs
      cases hs
      exact ⟨rfl, hget, Or.inr ⟨t', l₁, l₂, _, hk, ⟨h₄, hv₄, hs₄⟩, hlist, hlist'⟩⟩

theorem RbtreeHolds.set_absent (h : RbtreeHolds T m) (henv : env.Allocates) (hm : m k = none) :
    ∃ T', kvsRbtreeSetWithTimestamp env T k v ts = some (T', 0) ∧ RbtreeHolds T' (m.insert k ⟨v, ts⟩) := by
  have hget := h.get_absent hm
  obtain ⟨t, hi, hl⟩ := h
  obtain ⟨T₁, T₂, T₃, hT₁, hT₂, hT₃, h₃, hspare⟩ := hi.alloc k v ts
  have hstored : (m.mapVal Entry.stored) k = none := by simp [hm]
  have hk : ∀ a ∈ t.toList, a.key ≠ k := by
    rintro a ha rfl
    refine hl.apply_eq_none.mp hstored ?_
    rw [List.map_map]
    exact List.mem_map.mpr ⟨a, ha, rfl⟩
  obtain ⟨T₄, t', l₁, l₂, hT₄, h₄, hv₄, hs₄, hlist, hlist', -⟩ := h₃.insert hspare hi.valid hi.sorted hk
  refine ⟨T₄, ?_, t', ⟨h₄, hv₄, hs₄⟩, ?_⟩
  · have hne : T.malloc = (T.malloc.1, T.next) := rfl
    simp only [kvsRbtreeSetWithTimestamp, Option.bind_eq_bind]
    rw [hget, Option.bind_some, if_neg (by simp), if_neg (by simp [henv 0]), hne]
    simp only
    rw [if_neg (by simp [henv 1]), hT₁, Option.bind_some, if_neg (by simp [henv 2]), hT₂, Option.bind_some, hT₃,
      Option.bind_some, hT₄, Option.bind_some]
  · rw [hlist, List.map_append] at hl
    rw [hlist', List.map_append, List.map_cons, Map.mapVal_insert]
    exact hl.insert hstored

theorem RbtreeHolds.set_keeps {T' : Rbtree} {n : Int} (h : RbtreeHolds T m)
    (hs : kvsRbtreeSetWithTimestamp env T k v ts = some (T', n)) : ∃ m', RbtreeHolds T' m' := by
  obtain ⟨t, hi, hl⟩ := h
  rcases hi.set hs with ⟨-, h'⟩ | ⟨-, -, ⟨-, h'⟩ | ⟨t', l₁, l₂, p, hk, h', hlist, hlist'⟩⟩
  · exact ⟨m, t, h', hl⟩
  · exact ⟨m, t, h', hl⟩
  · have hstored : (m.mapVal Entry.stored) k = none := by
      rw [hl.apply_eq_none, List.map_map]
      intro hm
      obtain ⟨e, he, rfl⟩ := List.mem_map.mp hm
      exact hk e he rfl
    refine ⟨m.insert k ⟨v, ts⟩, t', h', ?_⟩
    rw [hlist, List.map_append] at hl
    rw [hlist', List.map_append, List.map_cons, Map.mapVal_insert]
    exact hl.insert hstored

/-! ### Deletion -/

/-- The list of keys and values after a deletion, whichever node left the tree. -/
theorem Removed.pairs {z : Cell} {es es' : List Cell} (h : Removed z es es') :
    ∃ l₁ l₂, es.map (fun e => (e.key, e.value)) = l₁ ++ (z.key, z.value) :: l₂ ∧
      es'.map (fun e => (e.key, e.value)) = l₁ ++ l₂ := by
  obtain ⟨l₁, l₂, ⟨rfl, rfl⟩ | ⟨y, rfl, rfl⟩⟩ := h
  · exact ⟨_, _, List.map_append, List.map_append⟩
  · exact ⟨l₁.map fun e => (e.key, e.value), (y.key, y.value) :: l₂.map fun e => (e.key, e.value), by simp, by simp⟩

theorem Removed.sorted {z : Cell} {es es' : List Cell} (h : Removed z es es') (hs : Sorted Cell.key es) :
    Sorted Cell.key es' := by
  obtain ⟨l₁, l₂, h₁, h₂⟩ := h.pairs
  have hkeys : ∀ es : List Cell, es.map Cell.key = (es.map fun e => (e.key, e.value)).map Prod.fst := by simp
  rw [Sorted, ← List.pairwise_map, hkeys] at hs ⊢
  rw [h₁] at hs
  rw [h₂]
  exact hs.sublist (((List.sublist_cons_self _ _).append_left l₁).map _)

/-- A deletion takes the entry out of the map, or out of the map and gives the next key its timestamp. -/
theorem Removed.lists {z : Cell} {es es' : List Cell} (h : Removed z es es')
    (hl : Lists (es.map Cell.entry) (m.mapVal Entry.stored)) :
    ∃ m' : Map CString Entry, Lists (es'.map Cell.entry) (m'.mapVal Entry.stored) ∧
      m'.mapVal Entry.value = (m.mapVal Entry.value).erase z.key := by
  obtain ⟨l₁, l₂, ⟨rfl, rfl⟩ | ⟨y, rfl, rfl⟩⟩ := h
  · refine ⟨m.erase z.key, ?_, Map.mapVal_erase _⟩
    rw [List.map_append, List.map_cons] at hl
    rw [List.map_append, Map.mapVal_erase]
    exact hl.erase
  · rw [List.map_append, List.map_cons, List.map_cons] at hl
    have hl₁ := hl.erase
    rw [← Map.mapVal_erase] at hl₁
    have hy := hl₁.apply_middle
    rw [Map.mapVal_apply, Option.map_eq_some_iff] at hy
    obtain ⟨a, ha, hs⟩ := hy
    obtain ⟨hv, -⟩ := Prod.mk.inj hs
    refine ⟨(m.erase z.key).insert y.key ⟨a.value, z.timestamp⟩, ?_, ?_⟩
    · rw [List.map_append, List.map_cons, Map.mapVal_insert]
      have := hl₁.update (b := (CharPtr.str a.value, z.timestamp))
      rw [hv] at this
      simpa [Entry.stored, Cell.entry, hv] using this
    · have hval : ((m.erase z.key).mapVal Entry.value) y.key = some a.value := by
        rw [Map.mapVal_apply, ha]
        rfl
      rw [Map.mapVal_insert, ← Map.mapVal_erase]
      exact Map.insert_of_apply hval

/-- A deletion of a key of the tree, with what becomes of the entries. -/
theorem RbtreeInv.delete_cases (h : RbtreeInv T (plug ctx (.node c l e r))) (hs : rbtreeSearch T k = some e.ptr)
    (hne : e.ptr ≠ T.nil) : ∃ T' t', kvsRbtreeDelete T k = some (T', 0) ∧ RbtreeInv T' t' ∧
      (((l = .nil ∨ r = .nil) ∧ TakenOut e (plug ctx (.node c l e r)).toList t'.toList) ∨
        (l ≠ .nil ∧ r ≠ .nil) ∧ TakenOver T e (plug ctx (.node c l e r)).toList t'.toList) := by
  obtain ⟨T₁, t', p, hT₁, h₁, hv₁, hloose, hcases⟩ := h.rep.delete h.valid
  have hrem : Removed e (plug ctx (.node c l e r)).toList t'.toList :=
    hcases.elim (fun hout => hout.2.removed) fun hover => hover.2.removed
  refine ⟨T₁.free p, t', ?_, ⟨h₁.free hloose, hv₁, hrem.sorted h.sorted⟩, hcases⟩
  obtain ⟨-, -, ⟨k', hk'⟩, v', hv'⟩ := hloose
  simp only [kvsRbtreeDelete, Option.bind_eq_bind]
  rw [hs, Option.bind_some, if_neg hne, hT₁, Option.bind_some]
  simp only
  rw [hk', Option.bind_some, hv', Option.bind_some]

theorem RbtreeInv.delete (h : RbtreeInv T (plug ctx (.node c l e r))) (hs : rbtreeSearch T k = some e.ptr)
    (hne : e.ptr ≠ T.nil) : ∃ T' t', kvsRbtreeDelete T k = some (T', 0) ∧ RbtreeInv T' t' ∧
      Removed e (plug ctx (.node c l e r)).toList t'.toList := by
  obtain ⟨T', t', hdelete, h', hcases⟩ := h.delete_cases hs hne
  exact ⟨T', t', hdelete, h', hcases.elim (fun hout => hout.2.removed) fun hover => hover.2.removed⟩

theorem RbtreeHolds.delete_present {a : Entry} (h : RbtreeHolds T m) (hm : m k = some a) :
    ∃ T' m', kvsRbtreeDelete T k = some (T', 0) ∧ RbtreeHolds T' m' ∧
      m'.mapVal Entry.value = (m.mapVal Entry.value).erase k := by
  obtain ⟨ctx, c, l, e, r, hi, hl, rfl, -, -, hs, hne⟩ := h.find_present hm
  obtain ⟨T', t', hdelete, h', hrem⟩ := hi.delete hs hne
  obtain ⟨m', hl', hm'⟩ := hrem.lists hl
  exact ⟨T', m', hdelete, ⟨t', h', hl'⟩, hm'⟩

theorem RbtreeHolds.delete_absent (h : RbtreeHolds T m) (hm : m k = none) : kvsRbtreeDelete T k = some (T, -2) := by
  simp [kvsRbtreeDelete, h.find_absent hm]

end Calls

/-! ### The engine -/

theorem rbtreeLaws : rbtreeEngine.Laws rbtreeAnswers RbtreeHolds AnyString AnyString where
  set_eq _ _ _ _ := rfl
  modify_eq _ _ _ _ := rfl
  set_full _ _ _ h := by cases h
  set_present h _ _ _ hm := h.set_present hm
  set_absent h _ _ henv _ hm := h.set_absent henv hm
  modify_present h _ _ henv hm := h.modify_present henv hm
  modify_absent h _ _ hm := h.modify_absent hm
  get_present h _ hm := h.get_present hm
  get_absent h _ hm := h.get_absent hm
  exist_present h _ hm := h.exist_present hm
  exist_absent h _ hm := h.exist_absent hm
  count h := h.count
  getTimestamp h _ hm := h.getTimestamp hm

theorem rbtreeDeleteLaws : rbtreeEngine.DeleteLaws rbtreeAnswers View.values RbtreeHolds AnyString where
  present h _ hm := h.delete_present hm
  absent h _ hm := h.delete_absent hm

theorem rbtreeSetKeeps : rbtreeEngine.SetKeeps RbtreeHolds AnyString AnyString := fun h _ _ hs => h.set_keeps hs

theorem rbtree_simulates : Run.Simulates rbtreeEngine.exec (MapSpec.step rbtreeAnswers View.values)
    (Engine.Shows RbtreeHolds View.values) (Call.Ok AnyString AnyString) := rbtreeLaws.simulates rbtreeDeleteLaws

end KvStore
