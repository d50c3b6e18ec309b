import KvStore.Theorems.Adds
import KvStore.Theorems.RbtreeBare
import KvStore.Theorems.RbtreeWalk
import KvStore.Theorems.Returns

/-! The sentinel is never read where it was not written. To see this, the store is given a sentinel of which only the
    color is written, as `kvs_rbtree_create` leaves it, before every operation: a read of another field of it is a fault,
    and the operations return. Of the fields only the parent is written by an operation, and only by a deletion. -/

namespace KvStore
open RedBlack

/-- The store with a sentinel of which only the color is written. -/
def Rbtree.forget (T : Rbtree) : Rbtree := T.put T.nil { RbtreeNode.fresh with color := T.color T.nil }

section Forget
variable {T : Rbtree} {t : RBTree Cell}

theorem forget_bare (T : Rbtree) : Bare none T.forget := ⟨T.color T.nil, if_pos rfl⟩

theorem Rep.forget (h : Rep T t) : Rep T.forget t where
  linked := by
    have hm : ∀ q ∈ addrs t, T.forget.mem q = T.mem q := fun q hq => put_ne (h.live q hq).1
    exact ⟨h.linked.1.congr rfl hm, h.linked.2⟩
  nodup := h.nodup
  live := h.live
  sentinel := by
    have hm : T.forget.mem T.nil = some { RbtreeNode.fresh with color := T.color T.nil } := if_pos rfl
    have hnil : T.forget.nil = T.nil := rfl
    rw [Rbtree.color, hnil, hm]
    exact h.sentinel
  nilLt := h.nilLt

theorem RbtreeInv.forget (h : RbtreeInv T t) : RbtreeInv T.forget t := ⟨h.rep.forget, h.valid, h.sorted⟩

end Forget

/-! ### Walks -/

/-- The copying loop stops in the copy of an entry, whose fields it has read. -/
inductive CopyStops (copy : List KvsItem → CString → CharPtr → UInt64 → Option Copied) (stop : CString → Bool)
    (T : Rbtree) : Nat → Ptr → List KvsItem → Prop where
  | here {n : Nat} {current : Ptr} {items : List KvsItem} {key : CString} {value : CharPtr} {timestamp : UInt64} :
      current ≠ T.nil → T.key current = some key → stop key = false → T.value current = some value →
      T.timestamp current = some timestamp → copy items key value timestamp = none →
      CopyStops copy stop T (n + 1) current items
  | next {n : Nat} {current next : Ptr} {items items' : List KvsItem} {key : CString} {value : CharPtr}
      {timestamp : UInt64} : current ≠ T.nil → T.key current = some key → stop key = false →
      T.value current = some value → T.timestamp current = some timestamp →
      copy items key value timestamp = some (.ok items') → rbtreeSuccessor T current = some next →
      CopyStops copy stop T n next items' → CopyStops copy stop T (n + 1) current items

/-- The recursion of `kvs_rbtree_save_node_recursive` stops in the record of an entry, whose fields it has read. -/
inductive SaveStops (disk : Disk) (T : Rbtree) : Nat → Ptr → OutFile → Prop where
  | here {fuel : Nat} {node : Ptr} {out : OutFile} {key : CString} {value : CharPtr} : node ≠ T.nil →
      T.key node = some key → T.value node = some value → saveRecord disk (-2) 1 out (.str key) value = none →
      SaveStops disk T (fuel + 1) node out
  | left {fuel : Nat} {node left : Ptr} {out out' : OutFile} {key : CString} {value : CharPtr} : node ≠ T.nil →
      T.key node = some key → T.value node = some value → saveRecord disk (-2) 1 out (.str key) value = some (out', 0) →
      T.left node = some left → left ≠ T.nil → SaveStops disk T fuel left out' → SaveStops disk T (fuel + 1) node out
  | right {fuel : Nat} {node left right : Ptr} {out out' out'' : OutFile} {key : CString} {value : CharPtr} {ret : Int} :
      node ≠ T.nil → T.key node = some key → T.value node = some value →
      saveRecord disk (-2) 1 out (.str key) value = some (out', 0) → T.left node = some left →
      (if left ≠ T.nil then kvsRbtreeSaveNodeRecursive disk T fuel left out' else some (out', 0)) = some (out'', ret) →
      T.right node = some right → right ≠ T.nil → SaveStops disk T fuel right out'' → SaveStops disk T (fuel + 1) node out

/-- A merge stops in a `set` of a new key, whose first allocation fails. -/
inductive SyncStops : (Nat → Env) → Rbtree → List SyncData → Prop where
  | here {env : Nat → Env} {T : Rbtree} {item : SyncData} {data : List SyncData} :
      kvsRbtreeGet T (.ofBytes item.key) = some .null → (env 0).alloc 0 = false → SyncStops env T (item :: data)
  | next {env : Nat → Env} {T T' : Rbtree} {item : SyncData} {data : List SyncData} :
      syncDataToLocalRbtreeEngine env T [item] = some (T', 0) → SyncStops (fun n => env (n + 1)) T' data →
      SyncStops env T (item :: data)

section Walks
variable {T : Rbtree} {t : RBTree Cell} {ctx : Ctx Cell} {xs ys : List Cell} {n fuel : Nat} {items : List KvsItem}
  {copy : List KvsItem → CString → CharPtr → UInt64 → Option Copied} {stop : CString → Bool}

theorem Rep.copyLoop_stops (h : Rep T t) (hlist : t.toList = xs ++ ys) :
    (∃ r, rbtreeCopyLoop copy stop T n (firstPtr T.nil ys) items = some r) ∨
      CopyStops copy stop T n (firstPtr T.nil ys) items := by
  induction n generalizing xs ys items with
  | zero => exact Or.inl ⟨_, rfl⟩
  | succ n ih =>
    cases ys with
    | nil => exact Or.inl ⟨.ok items, if_pos rfl⟩
    | cons c ys =>
      obtain ⟨hne, hkey, hvalue, htime⟩ := h.cell (e := c) (by simp [hlist])
      have hnext := h.next hlist
      have hfirst : firstPtr T.nil (c :: ys) = c.ptr := rfl
      have hrest : t.toList = (xs ++ [c]) ++ ys := by rw [hlist, List.append_assoc]; rfl
      rw [hfirst, rbtreeCopyLoop, if_neg hne, hkey, hvalue, htime, hnext]
      simp only [Option.bind_eq_bind, Option.bind_some]
      by_cases hs : stop c.key = true
      · exact Or.inl ⟨.ok items, if_pos hs⟩
      · rw [if_neg hs]
        have hs : stop c.key = false := by simpa using hs
        cases hcopy : copy items c.key c.value c.timestamp with
        | none => exact Or.inr (.here hne hkey hs hvalue htime hcopy)
        | some copied =>
          cases copied with
          | error code => exact Or.inl ⟨.error code, rfl⟩
          | ok items' =>
            rcases @ih (xs ++ [c]) ys items' hrest with hr | hstop
            · exact Or.inl hr
            · exact Or.inr (.next hne hkey hs hvalue htime hcopy hnext hstop)

theorem copyItem_length {cleared : CString → Nat} {env : Env} {used : Nat} {err errValue size : Int} {key : CString}
    {value : CharPtr} {timestamp : UInt64} {items' : List KvsItem}
    (hs : copyItem cleared env used err errValue size items key value timestamp = some (.ok items')) :
    items'.length = items.length + 1 := by
  simp only [copyItem, Option.bind_eq_bind] at hs
  split at hs
  · cases hs
  split at hs
  · cases hs
  obtain ⟨k, -, hs⟩ := Option.bind_eq_some_iff.mp hs
  obtain ⟨v, -, hs⟩ := Option.bind_eq_some_iff.mp hs
  split at hs
  · cases hs
  obtain ⟨v', -, hs⟩ := Option.bind_eq_some_iff.mp hs
  cases hs
  simp

/-- A copying loop that comes to its end has copied as many items as there are nodes. -/
theorem Rep.copyLoop_length {cleared : CString → Nat} {env : Env} {used : Nat} {err errValue size : Int}
    {items' : List KvsItem} (h : Rep T t) (hlist : t.toList = xs ++ ys)
    (hs : rbtreeCopyLoop (copyItem cleared env used err errValue size) (fun _ => false) T ys.length
      (firstPtr T.nil ys) items = some (.ok items')) : items'.length = items.length + ys.length := by
  induction ys generalizing xs items with
  | nil =>
    cases hs
    rfl
  | cons c ys ih =>
    obtain ⟨hne, hkey, hvalue, htime⟩ := h.cell (e := c) (by simp [hlist])
    have hnext := h.next hlist
    have hfirst : firstPtr T.nil (c :: ys) = c.ptr := rfl
    have hrest : t.toList = (xs ++ [c]) ++ ys := by rw [hlist, List.append_assoc]; rfl
    rw [hfirst, List.length_cons, rbtreeCopyLoop, if_neg hne, hkey, hvalue, htime, hnext] at hs
    simp only [Option.bind_eq_bind, Option.bind_some, Bool.false_eq_true, if_false] at hs
    obtain ⟨copied, hcopy, hs⟩ := Option.bind_eq_some_iff.mp hs
    cases copied with
    | error code => cases hs
    | ok items₁ =>
      have hrec := ih hrest hs
      rw [hrec, copyItem_length hcopy, List.length_cons]
      omega

theorem Rep.save_stops {disk : Disk} {out : OutFile} (h : Rep T (plug ctx t)) (hfuel : t.toList.length < fuel) :
    (∃ r, kvsRbtreeSaveNodeRecursive disk T fuel (ptrOf T.nil t) out = some r) ∨
      SaveStops disk T fuel (ptrOf T.nil t) out := by
  refine Rep.downward (P := fun fuel _ t => ∀ {out}, (∃ r, kvsRbtreeSaveNodeRecursive disk T fuel (ptrOf T.nil t) out =
    some r) ∨ SaveStops disk T fuel (ptrOf T.nil t) out) (fun fuel ctx out => Or.inl ⟨(out, 0), if_pos rfl⟩)
    (fun fuel ctx c l e r _ h ihl ihr out => ?_) h hfuel
  have F := h.fields (s := .left)
  have hne : e.ptr ≠ T.nil := (h.live_mk (s := .left)).1
  have hleft : T.left e.ptr = some (ptrOf T.nil l) := F.left
  have hright : T.right e.ptr = some (ptrOf T.nil r) := F.right
  rw [ptrOf_node, kvsRbtreeSaveNodeRecursive, if_neg hne, F.key, F.value, hleft, hright]
  simp only [Option.bind_eq_bind, Option.bind_some]
  cases hrec : saveRecord disk (-2) 1 out (.str e.key) e.value with
  | none => exact Or.inr (.here hne F.key F.value hrec)
  | some saved =>
    obtain ⟨out₁, res⟩ := saved
    simp only [Option.bind_some]
    by_cases hres : res ≠ 0
    · exact Or.inl ⟨_, if_pos hres⟩
    obtain rfl := not_not.mp hres
    rw [if_neg hres]
    have hl : (∃ saved, (if ptrOf T.nil l ≠ T.nil then kvsRbtreeSaveNodeRecursive disk T fuel (ptrOf T.nil l) out₁ else
        some (out₁, 0)) = some saved) ∨ (ptrOf T.nil l ≠ T.nil ∧ SaveStops disk T fuel (ptrOf T.nil l) out₁) := by
      by_cases hlne : ptrOf T.nil l ≠ T.nil
      · rcases @ihl out₁ with ⟨saved, hret⟩ | hstop
        · exact Or.inl ⟨saved, (if_pos hlne).trans hret⟩
        · exact Or.inr ⟨hlne, hstop⟩
      · exact Or.inl ⟨_, if_neg hlne⟩
    rcases hl with ⟨⟨out₂, ret⟩, hl⟩ | ⟨hlne, hstop⟩
    · rw [hl, Option.bind_some]
      by_cases hr : ptrOf T.nil r ≠ T.nil
      · rw [if_pos hr]
        rcases @ihr out₂ with hret | hstop
        · exact Or.inl hret
        · exact Or.inr (.right hne F.key F.value hrec hleft hl hright hr hstop)
      · exact Or.inl ⟨_, if_neg hr⟩
    · exact Or.inr (.left hne F.key F.value hrec hleft hlne hstop)

end Walks

/-! ### The calls -/

section Calls
variable {T T' : Rbtree} {t : RBTree Cell} {par : Option Ptr}

theorem RbtreeInv.exist_returns (h : RbtreeInv T t) (k : CString) : ∃ n, kvsRbtreeExist T k = some n := by
  by_cases hk : ∃ e ∈ t.toList, e.key = k
  · exact ⟨0, (h.exist_iff k).mpr hk⟩
  · exact ⟨-2, (h.reads_absent fun e he hek => hk ⟨e, he, hek⟩).2⟩

theorem RbtreeInv.modify_returns (h : RbtreeInv T t) (env : Env) (k v : CString) (ts : UInt64) :
    ∃ T' n, kvsRbtreeModifyWithTimestamp env T k v ts = some (T', n) := by
  rcases h.search k with ⟨hs, -⟩ | ⟨ctx, c, l, e, r, rfl, rfl, hs, hne⟩
  · exact ⟨T, -2, by simp [kvsRbtreeModifyWithTimestamp, hs]⟩
  · obtain ⟨T', -, n, hmodify, -⟩ := h.modify hs hne env v ts
    exact ⟨T', n, hmodify⟩

theorem RbtreeInv.delete_returns (h : RbtreeInv T t) (k : CString) : ∃ T' n, kvsRbtreeDelete T k = some (T', n) := by
  rcases h.search k with ⟨hs, -⟩ | ⟨ctx, c, l, e, r, rfl, rfl, hs, hne⟩
  · exact ⟨T, -2, by simp [kvsRbtreeDelete, hs]⟩
  · obtain ⟨T', -, hdelete, -⟩ := h.delete hs hne
    exact ⟨T', 0, hdelete⟩

/-- Of the allocations of a `set` only the first one is not checked. -/
theorem RbtreeInv.set_stops (h : RbtreeInv T t) (env : Env) (k v : CString) (ts : UInt64) :
    (∃ T' n, kvsRbtreeSetWithTimestamp env T k v ts = some (T', n)) ∨
      kvsRbtreeGet T k = some .null ∧ env.alloc 0 = false := by
  cases h₀ : env.alloc 0 with
  | true =>
    obtain ⟨⟨T', n⟩, hset⟩ := h.set_returns h₀ k v ts
    exact Or.inl ⟨T', n, hset⟩
  | false =>
    obtain ⟨p, hget⟩ := h.get_returns k
    by_cases hp : p = .null
    · exact Or.inr ⟨hp ▸ hget, rfl⟩
    · exact Or.inl ⟨T, 1, by simp [kvsRbtreeSetWithTimestamp, hget, hp]⟩

theorem RbtreeInv.getAll_stops (h : RbtreeInv T t) (env : Env) : (∃ r, kvsRbtreeGetAll env T = some r) ∨
    ∃ c p, kvsRbtreeCount T = some c ∧ rbtreeMini T T.root = some p ∧
      CopyStops (copyItem clearPointer env 1 (-3) (-4) c) (fun _ => false) T c.toNat p [] := by
  have hcount : kvsRbtreeCount T = some (t.toList.length : Int) := h.count
  have hfirst := h.rep.first (T := T) (t := t)
  simp only [kvsRbtreeGetAll, hcount, Option.bind_eq_bind, Option.bind_some, Int.toNat_natCast]
  by_cases hzero : (t.toList.length : Int) = 0
  · exact Or.inl ⟨_, if_pos hzero⟩
  rw [if_neg hzero]
  by_cases h₀ : env.alloc 0 = false
  · exact Or.inl ⟨_, if_pos h₀⟩
  have ht : t ≠ .nil := by
    rintro rfl
    exact hzero rfl
  rw [if_neg h₀, hfirst ht, Option.bind_some]
  have hlist : t.toList = [] ++ t.toList := rfl
  rcases @Rep.copyLoop_stops T t _ _ t.toList.length [] (copyItem clearPointer env 1 (-3) (-4) t.toList.length)
    (fun _ => false) h.rep hlist with ⟨copied, hcopied⟩ | hstop
  · refine Or.inl ?_
    cases copied with
    | error code => exact ⟨(code, []), by rw [hcopied]; rfl⟩
    | ok items =>
      have hlen := h.rep.copyLoop_length hlist hcopied
      refine ⟨(0, items), ?_⟩
      rw [hcopied, Option.bind_some]
      exact if_neg (by simp [hlen])
  · exact Or.inr ⟨_, _, rfl, rfl, by simpa using hstop⟩

theorem RbtreeInv.range_stops (h : RbtreeInv T t) (env : Env) (a b : CString) :
    (∃ r, kvsRbtreeRange env T a b = some r) ∨
    ∃ p c, rbtreeStartLoop T a T.fuel T.root T.nil = some p ∧ rbtreeMatchLoop T b T.fuel p 0 = some c ∧
      CopyStops (copyItem clearPointer env 1 (-2) (-3) c) (fun key => strcmp key b > 0) T c p [] := by
  have hlist : t.toList = (t.toList.takeWhile fun e => decide (e.key < a)) ++
      t.toList.dropWhile fun e => decide (e.key < a) := List.takeWhile_append_dropWhile.symm
  have hstart := h.rep.start h.sorted a
  have hmatch := h.rep.matchLoop (b := b) (n := 0) hlist (h.rep.suffix_lt_fuel hlist)
  simp only [kvsRbtreeRange, hstart, hmatch, Option.bind_eq_bind, Option.bind_some]
  split
  · exact Or.inl ⟨_, rfl⟩
  split
  · exact Or.inl ⟨_, rfl⟩
  split
  · exact Or.inl ⟨_, rfl⟩
  split
  · exact Or.inl ⟨_, rfl⟩
  rcases h.rep.copyLoop_stops hlist with ⟨copied, hcopied⟩ | hstop
  · rw [hcopied]
    exact Or.inl ⟨_, rfl⟩
  · exact Or.inr ⟨_, _, rfl, hmatch, hstop⟩

theorem RbtreeInv.save_stops (h : RbtreeInv T t) (disk : Disk) : (∃ r, kvsRbtreeSave disk T = some r) ∨
    ∃ c out, kvsRbtreeCount T = some c ∧ fwrite disk ⟨[], 0⟩ (IntCodec.int32 c) 4 = some (out, 1) ∧
      SaveStops disk T T.fuel T.root out := by
  have hroot : Rep T (plug [] t) := h.rep
  have hcount : kvsRbtreeCount T = some (t.toList.length : Int) := h.count
  obtain ⟨⟨out, res⟩, hwrite⟩ : ∃ r, fwrite disk ⟨[], 0⟩ (IntCodec.int32 t.toList.length) 4 = some r :=
    fwrite_returns (by decide) (by simp)
  simp only [kvsRbtreeSave, saveFile, hcount, hwrite, Option.bind_eq_bind, Option.bind_some]
  by_cases hres : res ≠ 1
  · exact Or.inl ⟨_, if_pos hres⟩
  obtain rfl := not_not.mp hres
  rw [if_neg hres]
  have hnode : (∃ r, kvsRbtreeSaveNodeRecursive disk T T.fuel T.root out = some r) ∨
      SaveStops disk T T.fuel T.root out := by
    rw [h.rep.linked.root]
    exact hroot.save_stops (Nat.lt_succ_of_lt h.rep.length_lt)
  rcases hnode with ⟨saved, hsaved⟩ | hstop
  · exact Or.inl ⟨_, by rw [hsaved]; rfl⟩
  · exact Or.inr ⟨_, _, rfl, hwrite, hstop⟩

/-- What one record of a merge does to the store and its sentinel. -/
theorem RbtreeInv.syncOne_stops (h : RbtreeInv T t) (hb : Bare par T) (env : Nat → Env) (item : SyncData) :
    (∃ T₁ t₁ ret, RbtreeInv T₁ t₁ ∧ Bare par T₁ ∧ ∀ data, syncDataToLocalRbtreeEngine env T (item :: data) =
      if ret ≠ 0 then some (T₁, ret) else syncDataToLocalRbtreeEngine (fun n => env (n + 1)) T₁ data) ∨
    kvsRbtreeGet T (.ofBytes item.key) = some .null ∧ (env 0).alloc 0 = false := by
  obtain ⟨p, hget⟩ : ∃ p, rbtreeEngine.get T (.ofBytes item.key) = some p := h.get_returns _
  by_cases hp : p = .null
  · subst hp
    rcases h.set_stops (env 0) (.ofBytes item.key) (.ofBytes item.value) item.timestamp with ⟨T₁, n, hset⟩ | hstop
    · obtain ⟨t₁, h₁⟩ := EngineKind.rbtreeKeeps.set ⟨t, h⟩ hset
      have hb₁ := hb.kvsSet h.next_ne_nil.symm hset
      have hset : rbtreeEngine.setWithTimestamp (env 0) T (.ofBytes item.key) (.ofBytes item.value) item.timestamp =
          some (T₁, n) := hset
      refine Or.inl ⟨T₁, t₁, n, h₁, hb₁.bare, fun data => ?_⟩
      simp [syncDataToLocalRbtreeEngine, syncDataToLocal, hget, hset]
    · exact Or.inr hstop
  · -- a key with a value is in the tree, and has a timestamp
    have hk : ∃ e ∈ t.toList, e.key = .ofBytes item.key := by
      by_contra hk
      obtain ⟨hnull, -⟩ := h.reads_absent fun e he hek => hk ⟨e, he, hek⟩
      exact hp (Option.some.inj (hget.symm.trans hnull))
    obtain ⟨e, he, hek⟩ := hk
    have htime : rbtreeEngine.getTimestamp T (.ofBytes item.key) = some e.timestamp := hek ▸ h.getTimestamp_mem he
    by_cases hnew : item.timestamp > e.timestamp
    · obtain ⟨T₁, n, hmodify⟩ := h.modify_returns (env 0) (.ofBytes item.key) (.ofBytes item.value) item.timestamp
      obtain ⟨t₁, h₁⟩ := EngineKind.rbtreeKeeps.modify ⟨t, h⟩ hmodify
      have hb₁ := hb.kvsModify hmodify
      have hmodify : rbtreeEngine.modifyWithTimestamp (env 0) T (.ofBytes item.key) (.ofBytes item.value) item.timestamp =
          some (T₁, n) := hmodify
      refine Or.inl ⟨T₁, t₁, n, h₁, hb₁.bare, fun data => ?_⟩
      simp [syncDataToLocalRbtreeEngine, syncDataToLocal, hget, hp, htime, hnew, hmodify]
    · refine Or.inl ⟨T, t, 0, h, hb, fun data => ?_⟩
      simp [syncDataToLocalRbtreeEngine, syncDataToLocal, hget, hp, htime, hnew]

/-- A merge stops only in a `set` without memory. -/
theorem RbtreeInv.sync_stops {data : List SyncData} {env : Nat → Env} (h : RbtreeInv T t) (hb : Bare par T) :
    (∃ T' n, syncDataToLocalRbtreeEngine env T data = some (T', n) ∧ Bare par T') ∨ SyncStops env T data := by
  induction data generalizing env T t with
  | nil => exact Or.inl ⟨T, 0, rfl, hb⟩
  | cons item data ih =>
    rcases h.syncOne_stops hb env item with ⟨T₁, t₁, ret, h₁, hb₁, hsync⟩ | ⟨hget, h₀⟩
    · rw [hsync data]
      by_cases hret : ret ≠ 0
      · exact Or.inl ⟨T₁, ret, if_pos hret, hb₁⟩
      · have hone : syncDataToLocalRbtreeEngine env T [item] = some (T₁, 0) := (hsync []).trans (if_neg hret)
        rw [if_neg hret]
        exact (ih h₁ hb₁).imp_right (.next hone)
    · exact Or.inr (.here hget h₀)

/-! ### Grandparents and siblings -/

/-- In the insertions into the store every grandparent that the repair works with is a real node. -/
def GrandparentsReal (T : Rbtree) : Prop :=
  ∀ {k v : CString} {ts : UInt64} {T₁ T₂ T₃ T₄ T₅ T₆ : Rbtree} {z g : Ptr}, T.malloc.1.setKey T.next k = some T₁ →
    T₁.setValue T.next (.str v) = some T₂ → T₂.setTimestamp T.next ts = some T₃ →
    rbtreeLink T₃ T.next = some (some T₄) → InsertReaches T₄ T.next T₅ z → Grandparent T₅ z T₆ g → g ≠ T₆.nil

/-- In the deletions from the store every sibling that the repair works with is a real node. -/
def SiblingsReal (T : Rbtree) : Prop :=
  ∀ {k : CString} {T₁ T₂ T₃ : Rbtree} {z y x x₂ w : Ptr} {s : Side}, rbtreeSearch T k = some z → z ≠ T.nil →
    rbtreeUnlink T z = some (T₁, x, y) → T₁.color y = some .black → DeleteReaches T₁ x T₂ x₂ → DeleteTurn T₂ x₂ s →
    Sibling s T₂ x₂ T₃ w → w ≠ T₃.nil

theorem RbtreeInv.grandparents_real (h : RbtreeInv T t) (hb : Bare par T) : GrandparentsReal T := by
  intro k v ts T₁ T₂ T₃ T₄ T₅ T₆ z g hT₁ hT₂ hT₃ hlink hreach hg
  have hnext := h.next_ne_nil
  have h₀ := hb.malloc hnext.symm
  have h₁ := h₀.trans (h₀.bare.update (h₀.nil ▸ hnext) hT₁)
  have h₂ := h₁.trans (h₁.bare.update (h₁.nil ▸ hnext) hT₂)
  have h₃ := h₂.trans (h₂.bare.update (h₂.nil ▸ hnext) hT₃)
  have h₄ := h₃.bare.link hlink
  -- the repair of this insertion comes to its end
  obtain ⟨T', hinsert⟩ := h.insert_returns hT₁ hT₂ hT₃
  rw [rbtreeInsert_eq, hlink, Option.bind_some, Option.elim_some] at hinsert
  obtain ⟨T₇, hloop, -⟩ := Option.bind_eq_some_iff.mp hinsert
  obtain ⟨fuel, hloop⟩ := insertReaches_returns hreach hloop
  exact (h₄.bare.insertReaches hreach).bare.grandparent hloop hg

theorem RbtreeInv.siblings_real (h : RbtreeInv T t) (hb : Bare par T) : SiblingsReal T := by
  intro k T₁ T₂ T₃ z y x x₂ w s hsearch hz hunlink hblack hreach hturn hw
  obtain ⟨T', p, hdelete⟩ : ∃ T' p, rbtreeDelete T z = some (T', p) := by
    rcases h.search k with ⟨hs, -⟩ | ⟨ctx, c, l, e, r, rfl, -, hs, -⟩
    · exact absurd (Option.some.inj (hsearch.symm.trans hs)) hz
    · obtain rfl := Option.some.inj (hsearch.symm.trans hs)
      obtain ⟨T', -, p, hdelete, -⟩ := h.rep.delete h.valid
      exact ⟨T', p, hdelete⟩
  obtain ⟨-, par', h₁⟩ := hb.unlink hunlink
  -- the repair of this deletion comes to its end
  rw [rbtreeDelete_eq, hunlink, Option.bind_some] at hdelete
  simp only [hblack, Option.bind_some, if_true] at hdelete
  obtain ⟨T₄, hfixup, -⟩ := Option.map_eq_some_iff.mp hdelete
  obtain ⟨⟨T₅, x₃⟩, hloop, -⟩ := Option.bind_eq_some_iff.mp hfixup
  obtain ⟨fuel, hloop⟩ := deleteReaches_returns hreach hloop
  obtain ⟨fuel', T₆, x₄, hside, -⟩ := deleteFixupLoop_turn hloop hturn
  exact (h₁.bare.deleteReaches hreach).bare.sibling hside hw

end Calls

/-! ### Every store -/

/-- The operations on the store never read a field of the sentinel that is not written. They are run with a sentinel of
    which only the color is written, where such a read is a fault: they return all the same, unless they stop in a `set`
    without memory or in the copy of an entry whose fields they have read. Nothing takes a written field back, so what is
    unwritten in the end has never been written or read: all the fields but the color, and after a deletion but the
    parent. -/
structure SentinelUnread (T : Rbtree) : Prop where
  bare : ∃ par, Bare par T
  get : ∀ k, ∃ p, kvsRbtreeGet T.forget k = some p
  exist : ∀ k, ∃ n, kvsRbtreeExist T.forget k = some n
  count : ∃ n, kvsRbtreeCount T.forget = some n
  set : ∀ env k v ts, (∃ T' n, kvsRbtreeSetWithTimestamp env T.forget k v ts = some (T', n) ∧ Bare none T') ∨
    kvsRbtreeGet T.forget k = some .null ∧ env.alloc 0 = false
  modify : ∀ env k v ts, ∃ T' n, kvsRbtreeModifyWithTimestamp env T.forget k v ts = some (T', n) ∧ Bare none T'
  delete : ∀ k, ∃ T' n par, kvsRbtreeDelete T.forget k = some (T', n) ∧ Bare par T'
  getAll : ∀ env, (∃ r, kvsRbtreeGetAll env T.forget = some r) ∨ ∃ c p, kvsRbtreeCount T.forget = some c ∧
    rbtreeMini T.forget T.root = some p ∧
      CopyStops (copyItem clearPointer env 1 (-3) (-4) c) (fun _ => false) T.forget c.toNat p []
  range : ∀ env a b, (∃ r, kvsRbtreeRange env T.forget a b = some r) ∨ ∃ p c,
    rbtreeStartLoop T.forget a T.fuel T.root T.nil = some p ∧ rbtreeMatchLoop T.forget b T.fuel p 0 = some c ∧
      CopyStops (copyItem clearPointer env 1 (-2) (-3) c) (fun key => strcmp key b > 0) T.forget c p []
  save : ∀ disk, (∃ r, kvsRbtreeSave disk T.forget = some r) ∨ ∃ c out, kvsRbtreeCount T.forget = some c ∧
    fwrite disk ⟨[], 0⟩ (IntCodec.int32 c) 4 = some (out, 1) ∧ SaveStops disk T.forget T.fuel T.root out
  sync : ∀ env data, (∃ T' n, syncDataToLocalRbtreeEngine env T.forget data = some (T', n) ∧ Bare none T') ∨
    SyncStops env T.forget data
  grandparents : GrandparentsReal T
  siblings : SiblingsReal T

/-- The store holds a red-black tree, and its sentinel is bare. -/
structure BareSound (T : Rbtree) : Prop where
  sound : EngineKind.Sound .rbtree T
  bare : ∃ par, Bare par T

theorem BareSound.unread {T : Rbtree} (h : BareSound T) : SentinelUnread T := by
  obtain ⟨⟨t, hi⟩, par, hb⟩ := h
  have hf := hi.forget
  have hbf := forget_bare T
  exact {
    bare := ⟨par, hb⟩
    get := hf.get_returns
    exist := hf.exist_returns
    count := ⟨_, hf.count⟩
    set := fun env k v ts => by
      rcases hf.set_stops env k v ts with ⟨T', n, hset⟩ | hstop
      · exact Or.inl ⟨T', n, hset, (hbf.kvsSet hf.next_ne_nil.symm hset).bare⟩
      · exact Or.inr hstop
    modify := fun env k v ts => by
      obtain ⟨T', n, hmodify⟩ := hf.modify_returns env k v ts
      exact ⟨T', n, hmodify, (hbf.kvsModify hmodify).bare⟩
    delete := fun k => by
      obtain ⟨T', n, hdelete⟩ := hf.delete_returns k
      obtain ⟨par', h'⟩ := hbf.kvsDelete hdelete
      exact ⟨T', n, par', hdelete, h'.bare⟩
    getAll := hf.getAll_stops
    range := hf.range_stops
    save := hf.save_stops
    sync := fun env data => hf.sync_stops hbf
    grandparents := hi.grandparents_real hb
    siblings := hi.siblings_real hb }

theorem bareSound_created : BareSound kvsRbtreeCreate :=
  ⟨EngineKind.created_sound .rbtree, none, some .black, rfl⟩

theorem bareSoundKeeps : rbtreeEngine.Keeps BareSound where
  set h hs := by
    obtain ⟨⟨t, hi⟩, par, hb⟩ := h
    exact ⟨EngineKind.rbtreeKeeps.set ⟨t, hi⟩ hs, par, (hb.kvsSet hi.next_ne_nil.symm hs).bare⟩
  modify h hs := by
    obtain ⟨hi, par, hb⟩ := h
    exact ⟨EngineKind.rbtreeKeeps.modify hi hs, par, (hb.kvsModify hs).bare⟩
  delete h hs := by
    obtain ⟨hi, par, hb⟩ := h
    obtain ⟨par', h'⟩ := hb.kvsDelete hs
    exact ⟨EngineKind.rbtreeKeeps.delete hi hs, par', h'.bare⟩

/-- The tree of a server is `BareSound`, whatever the other engines hold. -/
def EngineKind.BareStore : (kind : EngineKind) → kind.Store → Prop
  | .rbtree => BareSound
  | _ => fun _ => True

theorem EngineKind.BareStore.runCase {kind : EngineKind} {w : Surroundings} {tokens : Tokens} {count : Nat}
    {s s' : kind.Store} {files files' : Files} {op : Op} {response : Bytes} (h : kind.BareStore s)
    (hs : runCase kind.backend kind w tokens count s files op = some (s', files', response)) : kind.BareStore s' := by
  cases kind with
  | rbtree =>
    have hload : ∀ {env : Nat → Env} {T : Rbtree} {file : List UInt8} {T' : Rbtree} {n : Int}, BareSound T →
        rbtreeBackend.load env T file = some (T', n) → BareSound T' := fun h hs =>
      KvStore.load_keeps (fun h hs => bareSoundKeeps.setBuffers rbtreeLaws.set_eq h hs) h hs
    exact (bareSoundKeeps.toWith fun _ => True).runCase rbtreeLaws.set_eq rbtreeLaws.modify_eq (fun _ _ _ => trivial)
      (fun _ => hload) (fun _ _ _ => trivial) h hs
  | _ => trivial

theorem Dispatch.Reached.bareSound {g : Globals} (h : Dispatch.Reached g) : BareSound (g.store .rbtree) := by
  obtain ⟨files, inputs, outs, hrun⟩ := h
  have hstep : ∀ g i g' response, (∀ kind : EngineKind, kind.BareStore (g.store kind)) → True →
      Dispatch.step g i = some (g', response) → ∀ kind : EngineKind, kind.BareStore (g'.store kind) :=
    fun g i g' response hg _ hs => Dispatch.step_keeps (fun kind _ _ _ _ _ hcase => (hg kind).runCase hcase) hg hs
  have hinitial : ∀ kind : EngineKind, kind.BareStore ((Globals.initial files).store kind) := fun kind => by
    cases kind with
    | rbtree => exact bareSound_created
    | _ => trivial
  exact Run.runs_inv hstep hrun (fun _ _ => trivial) hinitial .rbtree

/-- In every store that calls lead to, and in the tree of a server after every run of commands. -/
theorem rbtree_sentinel_unread :
    (∀ calls T outs, Run.runs rbtreeEngine.exec kvsRbtreeCreate calls = some (T, outs) → SentinelUnread T) ∧
    ∀ g, Dispatch.Reached g → SentinelUnread (g.store .rbtree) := by
  refine ⟨fun calls T outs hrun => ?_, fun g hg => hg.bareSound.unread⟩
  exact (bareSoundKeeps.runs rbtreeLaws.set_eq rbtreeLaws.modify_eq bareSound_created hrun).unread

/-- Three black nodes, and a red one below them. -/
def fourSets : List Call := threeSets ++ [.setWithTimestamp (.calm 0) (.ofBytes [100]) (.ofBytes [4]) 4]

/-- The deletion of the key 97 puts the sentinel, at the address 1, in its place. Its sibling has the key 99. -/
theorem rbtree_sentinel_unread_fourSets : ∃ T outs T₁,
    Run.runs rbtreeEngine.exec kvsRbtreeCreate fourSets = some (T, outs) ∧ rbtreeUnlink T 3 = some (T₁, 1, 3) ∧
    Sibling .left T₁ 1 T₁ 4 ∧ T₁.key 4 = some (.ofBytes [99]) ∧ 4 ≠ T₁.nil := by
  obtain ⟨T, outs, T₁, hrun, hsearch, hne, hunlink, hblack, hturn, hw, hkey⟩ : ∃ T outs T₁,
      Run.runs rbtreeEngine.exec kvsRbtreeCreate fourSets = some (T, outs) ∧
      rbtreeSearch T (.ofBytes [97]) = some 3 ∧ 3 ≠ T.nil ∧ rbtreeUnlink T 3 = some (T₁, 1, 3) ∧
      T₁.color 3 = some .black ∧ DeleteTurn T₁ 1 .left ∧ Sibling .left T₁ 1 T₁ 4 ∧ T₁.key 4 = some (.ofBytes [99]) :=
    ⟨_, _, _, rfl, rfl, by decide, rfl, rfl, ⟨by decide, rfl, 2, 1, rfl, rfl, rfl⟩, .first (p := 2) rfl rfl, rfl⟩
  have hunread := rbtree_sentinel_unread.1 fourSets T outs hrun
  exact ⟨T, outs, T₁, hrun, hunlink, hw, hkey, hunread.siblings hsearch hne hunlink hblack .refl hturn hw⟩

end KvStore
