import KvStore.Theorems.Array
import KvStore.Theorems.Scan
import KvStore.Theorems.Sound

/-! What a `modify` that returns a negative code leaves. The old value is freed before the new one is allocated, so the
    store is as it was unless the key had a value and the allocation failed. -/

namespace KvStore
open FiniteMap RedBlack

/-- The key has a value that can be read. -/
def Engine.Live {σ : Type} (E : Engine σ) (s : σ) (k : CString) : Prop := ∃ v, E.get s k = some (.str v)

/-- What a `modify` with a negative code does to a store that satisfies `I`. -/
structure Engine.ModifyFailure {σ : Type} (E : Engine σ) (I : σ → Prop) : Prop where
  same : ∀ {env s k v t s' n}, I s → ¬(E.Live s k ∧ env.alloc 0 = false) →
    E.modifyWithTimestamp env s k v t = some (s', n) → n < 0 → s' = s
  loses : ∀ {env s k}, I s → E.Live s k → env.alloc 0 = false → ∀ v t,
    ∃ s' n, E.modifyWithTimestamp env s k v t = some (s', n) ∧ n < 0 ∧ ¬E.Live s' k

section Engines

/-- A value that is not live and was freed without a fault is null already. -/
theorem CharPtr.null_of_free {p : CharPtr} {u : Unit} (hfree : p.free = some u) (h : ∀ s, p ≠ .str s) : p = .null := by
  cases p with
  | null => rfl
  | freed => cases hfree
  | str s => exact absurd rfl (h s)

theorem setItem_same {T T' : KvArray} {i : Nat} {item : ArrayItem} (hitem : T.item i = some item)
    (hs : T.setItem i item = some T') : T' = T := by
  unfold KvArray.item at hitem
  split at hitem
  · rw [setItem_some hs, ← hitem, Function.update_eq_self]
  · cases hitem

theorem arrayModifyFailure : arrayEngine.ModifyFailure (EngineKind.Sound .array) where
  same {env T k v t T' n} _ hlive hs hn := by
    have hmodify : kvsArrayModifyWithTimestamp env T k v t = some (T', n) := hs
    simp only [kvsArrayModifyWithTimestamp, Option.bind_eq_bind] at hmodify
    split at hmodify
    · cases hmodify
      rfl
    obtain ⟨found, hfind, hmodify⟩ := Option.bind_eq_some_iff.mp hmodify
    cases found with
    | none =>
      cases hmodify
      rfl
    | some i =>
      obtain ⟨item, hitem, hmodify⟩ := Option.bind_eq_some_iff.mp hmodify
      obtain ⟨u, hfree, hmodify⟩ := Option.bind_eq_some_iff.mp hmodify
      have hget : arrayEngine.get T k = some item.value := by
        simp [arrayEngine, kvsArrayGet, hfind, hitem]
      split at hmodify
      · next halloc =>
        obtain ⟨T₁, hset, hmodify⟩ := Option.bind_eq_some_iff.mp hmodify
        cases hmodify
        have hnull : item.value = .null := CharPtr.null_of_free hfree fun w hw => hlive ⟨⟨w, hw ▸ hget⟩, halloc⟩
        have hitem' : ({ item with value := .null } : ArrayItem) = item := by rw [← hnull]
        exact setItem_same hitem (hitem' ▸ hset)
      · obtain ⟨T₁, -, hmodify⟩ := Option.bind_eq_some_iff.mp hmodify
        cases hmodify
        exact absurd hn (by decide)
  loses {env T k} h hlive halloc v t := by
    obtain ⟨es, hst, hfree⟩ := h
    obtain ⟨w, hget⟩ := hlive
    rcases hst.first k with ⟨-, hf⟩ | ⟨l₁, a, l₂, rfl, hk, -, -⟩
    · have hnull : arrayEngine.get T k = some .null := by simp [arrayEngine, kvsArrayGet, hf]
      rw [hnull] at hget
      cases hget
    · obtain ⟨T', hmodify, h'⟩ := hst.modify_failed hk (hfree (k, a) (by simp)) v t halloc
      refine ⟨T', -3, hmodify, by decide, ?_⟩
      rintro ⟨w', hget'⟩
      have hnull : arrayEngine.get T' k = some .null := h'.get_first hk
      rw [hnull] at hget'
      cases hget'

theorem setValue_same {T T' : Rbtree} {p : Ptr} {v : CharPtr} (hv : T.value p = some v)
    (hs : T.setValue p v = some T') : T' = T := by
  obtain ⟨r, hr, hv⟩ := Option.bind_eq_some_iff.mp hv
  have hput := update_eq hr fun n => { n with value := some v }
  rw [Rbtree.setValue, hput, Option.some.injEq] at hs
  have hsame : ({ r with value := some v } : RbtreeNode) = r := by rw [← hv]
  rw [← hs, hsame]
  have hmem : (fun q => if q = p then some r else T.mem q) = T.mem := by
    funext q
    split
    · next hq => rw [hq, hr]
    · rfl
  rw [Rbtree.put, hmem]

theorem rbtreeModifyFailure : rbtreeEngine.ModifyFailure (EngineKind.Carries (fun p => p ≠ .freed) .rbtree) where
  same {env T k v t T' n} h hlive hs hn := by
    obtain ⟨tree, hi, hes⟩ := h
    have hmodify : kvsRbtreeModifyWithTimestamp env T k v t = some (T', n) := hs
    rcases hi.search k with ⟨hsearch, -⟩ | ⟨ctx, c, l, e, r, rfl, rfl, hsearch, hne⟩
    · simp only [kvsRbtreeModifyWithTimestamp, hsearch, Option.bind_eq_bind, Option.bind_some, if_true] at hmodify
      cases hmodify
      rfl
    · have F := hi.rep.fields (s := .left)
      have hget : rbtreeEngine.get T e.key = some e.value := hi.get_mem (by simp [toList_plug, RBTree.toList])
      simp only [kvsRbtreeModifyWithTimestamp, hsearch, Option.bind_eq_bind, Option.bind_some, if_neg hne,
        F.value] at hmodify
      split at hmodify
      · next halloc =>
        obtain ⟨T₁, hset, hmodify⟩ := Option.bind_eq_some_iff.mp hmodify
        cases hmodify
        have hfree : e.value.free = some () := CharPtr.free_eq (hes e (by simp [toList_plug, RBTree.toList]))
        have hnull : e.value = .null := CharPtr.null_of_free hfree fun w hw => hlive ⟨⟨w, hw ▸ hget⟩, halloc⟩
        exact setValue_same (F.value.trans (congrArg some hnull)) hset
      · obtain ⟨T₁, -, hmodify⟩ := Option.bind_eq_some_iff.mp hmodify
        obtain ⟨T₂, -, hmodify⟩ := Option.bind_eq_some_iff.mp hmodify
        cases hmodify
        exact absurd hn (by decide)
  loses {env T k} h hlive halloc v t := by
    obtain ⟨tree, hi, -⟩ := h
    obtain ⟨w, hget⟩ := hlive
    rcases hi.search k with ⟨hs, -⟩ | ⟨ctx, c, l, e, r, rfl, rfl, hs, hne⟩
    · have hnull : rbtreeEngine.get T k = some .null := by simp [rbtreeEngine, kvsRbtreeGet, hs]
      rw [hnull] at hget
      cases hget
    · obtain ⟨T', hmodify, h'⟩ := hi.modify_failed hs hne v t halloc
      refine ⟨T', -3, hmodify, by decide, ?_⟩
      rintro ⟨w', hget'⟩
      have hnull : rbtreeEngine.get T' e.key = some .null :=
        h'.get_mem (e := { e with value := .null }) (by simp [toList_plug, RBTree.toList])
      rw [hnull] at hget'
      cases hget'

theorem chain_setChain {H : Hash} {slot : Int} {chain : List HashNode} (c : List HashNode)
    (hc : H.chain slot = some chain) : (H.setChain slot c).chain slot = some c := by
  unfold Hash.chain at hc ⊢
  split at hc
  · next hin => exact (if_pos hin).trans (congrArg some setChain_table_self)
  · cases hc

theorem hashModifyFailure : hashEngine.ModifyFailure (EngineKind.Carries (fun p => p ≠ .null) .hash) where
  same {env H k v t H' n} h hlive hs hn := by
    have hmodify : kvsHashModifyWithTimestamp env H k v t = some (H', n) := hs
    obtain ⟨chain, hc, -⟩ := Option.bind_eq_some_iff.mp hmodify
    rcases chain_cases k chain with hne | ⟨c₁, node, c₂, rfl, hk, hne⟩
    · rw [Hash.modify_none hc hne] at hmodify
      cases hmodify
      rfl
    · have hget : hashEngine.get H k = some node.value := Hash.get_chain_eq hne hk hc
      rw [Hash.modify_chain hne hk hc, Option.map_eq_some_iff] at hmodify
      obtain ⟨u, hfree, hmodify⟩ := hmodify
      split at hmodify
      · next halloc =>
        -- the value of the node can be freed, so it is live
        have hnull : node.value = .null := CharPtr.null_of_free hfree fun w hw => hlive ⟨⟨w, hw ▸ hget⟩, halloc⟩
        exact absurd hnull (h.of_chain hc node (by simp))
      · cases hmodify
        exact absurd hn (by decide)
  loses {env H k} _ hlive halloc v t := by
    obtain ⟨w, hget⟩ := hlive
    obtain ⟨chain, hc, hfind⟩ := Option.bind_eq_some_iff.mp (show kvsHashGet H k = _ from hget)
    rcases chain_cases k chain with hne | ⟨c₁, node, c₂, rfl, hk, hne⟩
    · rw [findHashNode_none hne] at hfind
      cases hfind
    · have hvalue : node.value = .str w := by
        rw [findHashNode_append hne hk] at hfind
        exact Option.some.inj hfind
      have hmodify : kvsHashModifyWithTimestamp env H k v t =
          some (H.setChain (hash k H.maxSlots) (c₁ ++ { node with value := .freed } :: c₂), -3) := by
        rw [Hash.modify_chain hne hk hc, hvalue, halloc]
        rfl
      refine ⟨_, -3, hmodify, by decide, ?_⟩
      rintro ⟨w', hget'⟩
      have hchain := chain_setChain (c₁ ++ { node with value := CharPtr.freed } :: c₂) hc
      have hfreed : hashEngine.get (H.setChain (hash k H.maxSlots) (c₁ ++ { node with value := .freed } :: c₂)) k =
          some .freed := Hash.get_chain_eq (n := { node with value := .freed }) hne hk hchain
      rw [hfreed] at hget'
      cases hget'

end Engines

namespace EngineKind

/-- No two entries of the store have the same key. -/
def NoDuplicates : (kind : EngineKind) → kind.Store → Prop
  | .array => fun T => ∃ es, T.Stores es ∧ (es.map Prod.fst).Nodup
  | .rbtree => fun T => ∃ t, Rep T t ∧ (t.toList.map Cell.key).Nodup
  | .hash => fun H => (H.entries.map Prod.fst).Nodup
  | .skiptable => fun T => ∃ L, SkipInv T L ∧ (L.map SkipCell.key).Nodup

/-- No calls whose modifications can allocate lead from the store to one with a key twice. -/
def StaysUnique (kind : EngineKind) (s : kind.Store) : Prop :=
  ∀ calls s' outs, (∀ c ∈ calls, c.Strings kind.Key kind.Val ∧ c.ModifyAllocates) →
    Run.runs kind.engine.exec s calls = some (s', outs) → kind.NoDuplicates s'

/-- When `modify` returns a negative code, the reads of every key give what they gave before, and a store that stays
    free of duplicates still does. -/
def FailedModifyKeeps (kind : EngineKind) (s : kind.Store) (env : Env) (k v : CString) (t : UInt64) : Prop :=
  ∀ s' n, kind.engine.modifyWithTimestamp env s k v t = some (s', n) → n < 0 →
    (∀ j, kind.engine.get s' j = kind.engine.get s j ∧ kind.engine.getTimestamp s' j = kind.engine.getTimestamp s j) ∧
      (kind.StaysUnique s → kind.StaysUnique s')

theorem failedModifyKeeps_iff (kind : EngineKind) {I : kind.Store → Prop} (F : kind.engine.ModifyFailure I)
    {s : kind.Store} (h : I s) (env : Env) (k v : CString) (t : UInt64) :
    kind.FailedModifyKeeps s env k v t ↔ ¬(kind.engine.Live s k ∧ env.alloc 0 = false) := by
  constructor
  · rintro hkeeps ⟨hlive, halloc⟩
    obtain ⟨s', n, hmodify, hn, hdead⟩ := F.loses h hlive halloc v t
    obtain ⟨w, hget⟩ := hlive
    exact hdead ⟨w, (((hkeeps s' n hmodify hn).1 k).1).trans hget⟩
  · intro hlive s' n hmodify hn
    obtain rfl := F.same h hlive hmodify hn
    exact ⟨fun _ => ⟨rfl, rfl⟩, id⟩

/-- Of every store of the array, the tree or the hash table that calls lead to, whatever their allocations come to: a
    `modify` with a negative code changes nothing exactly when the key has no value or the new one can be allocated. -/
theorem failed_modify_keeps_iff {kind : EngineKind} (hkind : kind ≠ .skiptable) {calls : List Call} {s : kind.Store}
    {outs : List Ret} (hrun : Run.runs kind.engine.exec kind.created calls = some (s, outs)) (env : Env) (k v : CString)
    (t : UInt64) :
    kind.FailedModifyKeeps s env k v t ↔ ¬(kind.engine.Live s k ∧ env.alloc 0 = false) := by
  have hset := kind.laws.set_eq
  have hmodify := kind.laws.modify_eq
  cases kind with
  | array =>
    have h := arrayKeeps.runs hset hmodify (created_sound .array) hrun
    exact failedModifyKeeps_iff .array arrayModifyFailure h env k v t
  | rbtree =>
    have K := Engine.Keeps.ofWith (rbtreeCarries (P := fun p => p ≠ .freed) (by simp)) (by simp)
    have h := K.runs hset hmodify (created_carries .rbtree) hrun
    exact failedModifyKeeps_iff .rbtree rbtreeModifyFailure h env k v t
  | hash =>
    have K := Engine.Keeps.ofWith (hashCarries (P := fun p => p ≠ .null) (by simp)) (by simp)
    have h := K.runs hset hmodify (created_carries .hash) hrun
    exact failedModifyKeeps_iff .hash hashModifyFailure h env k v t
  | skiptable => exact absurd rfl hkind

end EngineKind

/-- The key 97, set when memory is there. -/
def setOne : List Call :=
  [.set (.calm 1) (.ofBytes [97]) (.ofBytes [1])]

/-- No allocation succeeds. -/
def noMemory : Env := ⟨2, fun _ => false, fun _ => false⟩

/-- A modification that loses the value of its key, and one of a key that is not there. -/
theorem failed_modify_keeps_iff_setOne : ∃ T outs, Run.runs arrayEngine.exec kvsArrayCreate setOne = some (T, outs) ∧
    (EngineKind.array.FailedModifyKeeps T noMemory (.ofBytes [97]) (.ofBytes [2]) 2 ↔
      ¬(arrayEngine.Live T (.ofBytes [97]) ∧ noMemory.alloc 0 = false)) ∧
    (EngineKind.array.FailedModifyKeeps T noMemory (.ofBytes [98]) (.ofBytes [2]) 2 ↔
      ¬(arrayEngine.Live T (.ofBytes [98]) ∧ noMemory.alloc 0 = false)) := by
  have hiff := @EngineKind.failed_modify_keeps_iff .array (by decide) setOne _ _ rfl noMemory
  exact ⟨_, _, rfl, hiff _ _ 2, hiff _ _ 2⟩

/-- The modification of the key loses its value, and a `set` then puts a second item for it into the table. -/
theorem failed_modify_duplicates : ∃ T outs T' T'', Run.runs arrayEngine.exec kvsArrayCreate setOne = some (T, outs) ∧
    kvsArrayModifyWithTimestamp noMemory T (.ofBytes [97]) (.ofBytes [2]) 2 = some (T', -3) ∧
    kvsArrayGet T (.ofBytes [97]) = some (.str (.ofBytes [1])) ∧ kvsArrayGet T' (.ofBytes [97]) = some .null ∧
    kvsArraySet (.calm 3) T' (.ofBytes [97]) (.ofBytes [3]) = some (T'', 0) ∧ ¬EngineKind.array.NoDuplicates T'' ∧
    ¬EngineKind.array.FailedModifyKeeps T noMemory (.ofBytes [97]) (.ofBytes [2]) 2 := by
  refine ⟨_, _, _, _, rfl, rfl, rfl, rfl, rfl, ?_, ?_⟩
  · rintro ⟨es, hst, hnd⟩
    obtain ⟨e, f, rfl⟩ := List.length_eq_two.mp hst.total.symm
    have he : ArrayItem.mk (.str (.ofBytes [97])) .null 1 = arrayItem e := Option.some.inj (hst.slot 0 e rfl)
    have hf : ArrayItem.mk (.str (.ofBytes [97])) (.str (.ofBytes [3])) 3 = arrayItem f :=
      Option.some.inj (hst.slot 1 f rfl)
    have hkeys : e.1 = f.1 := CharPtr.str.inj ((congrArg ArrayItem.key he).symm.trans (congrArg ArrayItem.key hf))
    simp [hkeys] at hnd
  · intro hkeeps
    have hget := ((hkeeps _ (-3) rfl (by decide)).1 (.ofBytes [97])).1
    exact CharPtr.noConfusion (Option.some.inj hget)

end KvStore
