import KvStore.Theorems.Backend
import KvStore.Theorems.HashSlot
import KvStore.Theorems.SkiptableSave

/-! What all stored values have in common stays common to them: a store gets its values from its calls, or they are the
    pointers that a failed `modify` leaves. -/

namespace KvStore
open FiniteMap RedBlack

namespace EngineKind

/-- The store is laid out as its engine lays it out, and what it stores as values satisfies `P`. -/
def Carries (P : CharPtr → Prop) : (kind : EngineKind) → kind.Store → Prop
  | .array => fun T => ∃ es, T.Stores es ∧ ∀ e ∈ es, e.2.1 ≠ .freed ∧ P e.2.1
  | .rbtree => fun T => ∃ t, RbtreeInv T t ∧ ∀ e ∈ t.toList, P e.value
  | .hash => fun H => ∀ i, ∀ n ∈ H.table i, P n.value
  | .skiptable => fun T => ∃ L, SkipInv T L ∧ ∀ c ∈ L, P (.str c.value)

variable {P : CharPtr → Prop}

theorem arrayCarries (hnull : P .null) : arrayEngine.KeepsWith (fun v => P (.str v)) (Carries P .array) where
  set {env T k v t T' n} hv h hs := by
    obtain ⟨es, hst, hes⟩ := id h
    rcases hst.set hs with ⟨-, rfl⟩ | ⟨-, -, h'⟩
    · exact h
    · refine ⟨_, h', List.forall_mem_append.mpr ⟨hes, ?_⟩⟩
      rw [List.forall_mem_singleton]
      exact ⟨by simp, hv⟩
  modify {env T k v t T' n} hv h hs := by
    obtain ⟨es, hst, hes⟩ := id h
    rcases hst.first k with ⟨-, hf⟩ | ⟨l₁, a, l₂, rfl, hk, -, -⟩
    · have hsame : kvsArrayModifyWithTimestamp env T k v t = some (T', n) := hs
      simp only [kvsArrayModifyWithTimestamp, hf, Option.bind_eq_bind, Option.bind_some] at hsame
      split at hsame <;> cases hsame <;> exact h
    · obtain ⟨T₁, b, n₁, hmodify, h', hb⟩ : ∃ T₁ b n₁, kvsArrayModifyWithTimestamp env T k v t = some (T₁, n₁) ∧
          T₁.Stores (l₁ ++ (k, b) :: l₂) ∧ b.1 ≠ .freed ∧ P b.1 := by
        have hfree := (hes (k, a) (by simp)).1
        cases halloc : env.alloc 0 with
        | false =>
          obtain ⟨T₁, hmodify, h'⟩ := hst.modify_failed hk hfree v t halloc
          exact ⟨T₁, _, _, hmodify, h', by simp, hnull⟩
        | true =>
          obtain ⟨T₁, b, n₁, hmodify, h', -, hb⟩ := hst.modify hk hfree env v t
          obtain ⟨rfl, rfl⟩ := hb halloc
          exact ⟨T₁, _, _, hmodify, h', by simp, hv⟩
      rw [show arrayEngine.modifyWithTimestamp env T k v t = _ from hmodify] at hs
      cases hs
      simp only [List.forall_mem_append, List.forall_mem_cons] at hes
      exact ⟨_, h', List.forall_mem_append.mpr ⟨hes.1, List.forall_mem_cons.mpr ⟨hb, hes.2.2⟩⟩⟩
  delete {T k T' n} h hs := by
    obtain ⟨es, hst, hes⟩ := id h
    rcases hst.first k with ⟨-, hf⟩ | ⟨l₁, a, l₂, rfl, hk, -, -⟩
    · have hsame : kvsArrayDelete T k = some (T', n) := hs
      simp only [kvsArrayDelete, hf, Option.bind_eq_bind, Option.bind_some] at hsame
      cases hsame
      exact h
    · obtain ⟨T₁, es', hdelete, h', hperm⟩ := hst.delete hk (hes (k, a) (by simp)).1
      rw [show arrayEngine.delete T k = _ from hdelete] at hs
      cases hs
      refine ⟨_, h', fun e he => hes e ?_⟩
      have hmem := hperm.mem_iff.mpr he
      simp only [List.mem_append, List.mem_cons] at hmem ⊢
      tauto

theorem rbtreeCarries (hnull : P .null) : rbtreeEngine.KeepsWith (fun v => P (.str v)) (Carries P .rbtree) where
  set {env T k v t T' n} hv h hs := by
    obtain ⟨tree, hi, hes⟩ := h
    rcases hi.set hs with ⟨-, h'⟩ | ⟨-, -, ⟨-, h'⟩ | ⟨tree', l₁, l₂, p, -, h', hold, hnew⟩⟩
    · exact ⟨tree, h', hes⟩
    · exact ⟨tree, h', hes⟩
    · refine ⟨tree', h', ?_⟩
      rw [hold, List.forall_mem_append] at hes
      rw [hnew, List.forall_mem_append, List.forall_mem_cons]
      exact ⟨hes.1, hv, hes.2⟩
  modify {env T k v ts T' n} hv h hs := by
    obtain ⟨tree, hi, hes⟩ := h
    rcases hi.search k with ⟨hk, -⟩ | ⟨ctx, c, l, e, r, rfl, rfl, hk, hne⟩
    · have hsame : kvsRbtreeModifyWithTimestamp env T k v ts = some (T', n) := hs
      simp only [kvsRbtreeModifyWithTimestamp, hk, Option.bind_eq_bind, Option.bind_some, if_true] at hsame
      cases hsame
      exact ⟨tree, hi, hes⟩
    · obtain ⟨T₁, e', n₁, hmodify, h', he'⟩ : ∃ T₁ e' n₁,
          kvsRbtreeModifyWithTimestamp env T e.key v ts = some (T₁, n₁) ∧
          RbtreeInv T₁ (plug ctx (.node c l e' r)) ∧ P e'.value := by
        cases halloc : env.alloc 0 with
        | false =>
          obtain ⟨T₁, hmodify, h'⟩ := hi.modify_failed hk hne v ts halloc
          exact ⟨T₁, _, _, hmodify, h', hnull⟩
        | true =>
          obtain ⟨T₁, e', n₁, hmodify, h', he'⟩ := hi.modify hk hne env v ts
          obtain ⟨rfl, rfl⟩ := he' halloc
          exact ⟨T₁, _, _, hmodify, h', hv⟩
      rw [show rbtreeEngine.modifyWithTimestamp env T e.key v ts = _ from hmodify] at hs
      cases hs
      refine ⟨_, h', ?_⟩
      rw [toList_plug_node, List.forall_mem_append, List.forall_mem_cons] at hes ⊢
      exact ⟨hes.1, he', hes.2.2⟩
  delete {T k T' n} h hs := by
    obtain ⟨tree, hi, hes⟩ := h
    rcases hi.search k with ⟨hk, -⟩ | ⟨ctx, c, l, e, r, rfl, rfl, hk, hne⟩
    · have hsame : kvsRbtreeDelete T k = some (T', n) := hs
      simp only [kvsRbtreeDelete, hk, Option.bind_eq_bind, Option.bind_some, if_true] at hsame
      cases hsame
      exact ⟨tree, hi, hes⟩
    · obtain ⟨T₁, tree', hdelete, h', hrem⟩ := hi.delete hk hne
      rw [show rbtreeEngine.delete T e.key = _ from hdelete] at hs
      cases hs
      refine ⟨tree', h', ?_⟩
      obtain ⟨l₁, l₂, ⟨hold, hnew⟩ | ⟨y, hold, hnew⟩⟩ := hrem
      · rw [hold, List.forall_mem_append, List.forall_mem_cons] at hes
        rw [hnew, List.forall_mem_append]
        exact ⟨hes.1, hes.2.2⟩
      · rw [hold, List.forall_mem_append, List.forall_mem_cons, List.forall_mem_cons] at hes
        rw [hnew, List.forall_mem_append, List.forall_mem_cons]
        exact ⟨hes.1, hes.2.2.1, hes.2.2.2⟩

theorem Carries.setChain {H : Hash} {slot : Int} {c : List HashNode} {count : Int} (h : Carries P .hash H)
    (hc : ∀ n ∈ c, P n.value) : Carries P .hash { H.setChain slot c with count := count } := by
  intro i n hn
  by_cases hi : i = slot.toNat
  · subst hi
    have hn' : n ∈ (H.setChain slot c).table slot.toNat := hn
    rw [setChain_table_self] at hn'
    exact hc n hn'
  · have hn' : n ∈ (H.setChain slot c).table i := hn
    rw [setChain_table_ne hi] at hn'
    exact h i n hn'

theorem Carries.of_chain {H : Hash} {slot : Int} {chain : List HashNode} (h : Carries P .hash H)
    (hc : H.chain slot = some chain) : ∀ n ∈ chain, P n.value := by
  unfold Hash.chain at hc
  split at hc
  · cases hc
    exact h _
  · cases hc

theorem hashCarries (hfreed : P .freed) : hashEngine.KeepsWith (fun v => P (.str v)) (Carries P .hash) where
  set {env H k v t H' n} hv h hs := by
    have hset : kvsHashSetWithTimestamp env H k v t = some (H', n) := hs
    simp only [kvsHashSetWithTimestamp, Option.bind_eq_bind, Option.bind_eq_some_iff] at hset
    obtain ⟨chain, hc, hset⟩ := hset
    cases hf : findHashNode k chain <;> simp only [hf] at hset
    · cases hnode : createHashNode env k v t <;> simp only [hnode] at hset <;> cases hset
      · exact h
      · refine h.setChain (List.forall_mem_cons.mpr ⟨?_, h.of_chain hc⟩)
        rw [createHashNode_eq hnode]
        exact hv
    · cases hset
      exact h
  modify {env H k v t H' n} hv h hs := by
    have hmodify : kvsHashModifyWithTimestamp env H k v t = some (H', n) := hs
    obtain ⟨chain, hc, -⟩ := Option.bind_eq_some_iff.mp hmodify
    rcases chain_cases k chain with hn | ⟨c₁, node, c₂, rfl, hk, hn⟩
    · rw [Hash.modify_none hc hn] at hmodify
      cases hmodify
      exact h
    · have hes := h.of_chain hc
      simp only [List.forall_mem_append, List.forall_mem_cons] at hes
      rw [Hash.modify_chain hn hk hc, Option.map_eq_some_iff] at hmodify
      obtain ⟨-, -, hmodify⟩ := hmodify
      split at hmodify <;> cases hmodify
      · exact h.setChain (List.forall_mem_append.mpr ⟨hes.1, List.forall_mem_cons.mpr ⟨hfreed, hes.2.2⟩⟩)
      · exact h.setChain (List.forall_mem_append.mpr ⟨hes.1, List.forall_mem_cons.mpr ⟨hv, hes.2.2⟩⟩)
  delete {H k H' n} h hs := by
    have hdelete : kvsHashDelete H k = some (H', n) := hs
    obtain ⟨chain, hc, -⟩ := Option.bind_eq_some_iff.mp hdelete
    rcases chain_cases k chain with hn | ⟨c₁, node, c₂, rfl, hk, hn⟩
    · rw [Hash.delete_absent hc hn] at hdelete
      cases hdelete
      exact h
    · have hes := h.of_chain hc
      simp only [List.forall_mem_append, List.forall_mem_cons] at hes
      by_cases hv : node.value = .freed
      · rw [Hash.delete_freed hn hk hv hc] at hdelete
        cases hdelete
      · rw [Hash.delete_chain hn hk (CharPtr.free_eq hv) hc] at hdelete
        cases hdelete
        exact h.setChain (List.forall_mem_append.mpr ⟨hes.1, hes.2.2⟩)

theorem skipCarries (htrunc : ∀ v, P (.str v) → P (.str v.trunc)) :
    skiptableEngine.KeepsWith (fun v => P (.str v)) (Carries P .skiptable) where
  set {env T k v t T' n} hv h hs := by
    obtain ⟨L, hi, hes⟩ := id h
    rcases hi.set_buffers hs with ⟨-, rfl⟩ | ⟨-, l₁, l₂, c, rfl, -, h', -, hc⟩
    · exact h
    · rw [List.forall_mem_append] at hes
      refine ⟨_, h', List.forall_mem_append.mpr ⟨hes.1, List.forall_mem_cons.mpr ⟨?_, hes.2⟩⟩⟩
      rw [hc, CString.ofBytes_buf]
      exact htrunc v hv
  modify {env T k v t T' n} hv h hs := by
    obtain ⟨L, hi, hes⟩ := id h
    have hmodify : kvsSkiptableModifyWithTimestamp T k.buf v.buf t = some (T', n) := hs
    rcases hi.find k with ⟨l₁, l₂, rfl, -, -, hf⟩ | ⟨l₁, c, l₂, rfl, hcut, hk, -⟩
    · rw [show kvsSkiptableModifyWithTimestamp T k.buf v.buf t = some (T, -1) by
        simp [kvsSkiptableModifyWithTimestamp, hf]] at hmodify
      cases hmodify
      exact h
    · obtain ⟨T₁, hdone, h'⟩ := hi.modify (v := v) (t := t) hcut hk
      rw [hdone] at hmodify
      cases hmodify
      simp only [List.forall_mem_append, List.forall_mem_cons] at hes
      exact ⟨_, h', List.forall_mem_append.mpr ⟨hes.1, List.forall_mem_cons.mpr ⟨htrunc v hv, hes.2.2⟩⟩⟩
  delete {T k T' n} h hs := by
    obtain ⟨L, hi, hes⟩ := id h
    have hdelete : kvsSkiptableDelete T k.buf = some (T', n) := hs
    rcases hi.find k with ⟨l₁, l₂, rfl, -, -, hf⟩ | ⟨l₁, c, l₂, rfl, hcut, hk, -⟩
    · rw [show kvsSkiptableDelete T k.buf = some (T, -1) by simp [kvsSkiptableDelete, hf]] at hdelete
      cases hdelete
      exact h
    · obtain ⟨T₁, hdone, h'⟩ := hi.delete hcut hk
      rw [hdone] at hdelete
      cases hdelete
      simp only [List.forall_mem_append, List.forall_mem_cons] at hes
      exact ⟨_, h', List.forall_mem_append.mpr ⟨hes.1, hes.2.2⟩⟩

/-- Every store carries what its values have in common, when that is kept by cutting them and the pointers that a failed
    `modify` leaves share it. -/
theorem carries (hnull : P .null) (hfreed : P .freed) (htrunc : ∀ v, P (.str v) → P (.str v.trunc))
    (kind : EngineKind) :
    kind.engine.KeepsWith (fun v => P (.str v)) (kind.Carries P) := by
  cases kind with
  | array => exact arrayCarries hnull
  | rbtree => exact rbtreeCarries hnull
  | hash => exact hashCarries hfreed
  | skiptable => exact skipCarries htrunc

/-- What a key shows is a value of the store, or no value. -/
theorem Carries.get (hnull : P .null) {kind : EngineKind} {s : kind.Store} {k : CString} {p : CharPtr}
    (h : kind.Carries P s) (hs : kind.engine.get s k = some p) : P p := by
  cases kind with
  | array =>
    obtain ⟨es, hst, hes⟩ := h
    have hget : kvsArrayGet s k = some p := hs
    rcases hst.first k with ⟨-, hf⟩ | ⟨l₁, a, l₂, rfl, hk, -, -⟩
    · simp only [kvsArrayGet, hf, Option.bind_eq_bind, Option.bind_some] at hget
      cases hget
      exact hnull
    · rw [hst.get_first hk] at hget
      cases hget
      exact (hes (k, a) (by simp)).2
  | rbtree =>
    obtain ⟨t, hi, hes⟩ := h
    have hget : kvsRbtreeGet s k = some p := hs
    by_cases hk : ∃ e ∈ t.toList, e.key = k
    · obtain ⟨e, he, rfl⟩ := hk
      rw [hi.get_mem he] at hget
      cases hget
      exact hes e he
    · have habsent := hi.search_absent fun e he hek => hk ⟨e, he, hek⟩
      simp only [kvsRbtreeGet, habsent, Option.bind_eq_bind, Option.bind_some, if_true] at hget
      cases hget
      exact hnull
  | hash =>
    obtain ⟨chain, hc, hget⟩ := Option.bind_eq_some_iff.mp (show kvsHashGet s k = some p from hs)
    rcases chain_cases k chain with hn | ⟨c₁, node, c₂, rfl, hk, hn⟩
    · rw [findHashNode_none hn] at hget
      cases hget
      exact hnull
    · rw [findHashNode_append hn hk] at hget
      cases hget
      exact h.of_chain hc node (by simp)
  | skiptable =>
    obtain ⟨L, hi, hes⟩ := h
    have hget : kvsSkiptableGet s k.buf = some p := hs
    rcases hi.find k with ⟨l₁, l₂, rfl, -, -, hf⟩ | ⟨l₁, c, l₂, rfl, -, -, hf, hnode⟩
    · simp only [kvsSkiptableGet, hf, Option.bind_eq_bind, Option.bind_some] at hget
      cases hget
      exact hnull
    · simp only [kvsSkiptableGet, hf, hnode, Option.bind_eq_bind, Option.bind_some, SkipCell.node] at hget
      cases hget
      exact hes c (by simp)

theorem created_carries (kind : EngineKind) : kind.Carries P kind.created := by
  cases kind with
  | array => exact ⟨[], ⟨rfl, Nat.zero_le _, by simp⟩, by simp⟩
  | rbtree => exact ⟨_, rbtreeCreate_inv, by simp [RBTree.toList]⟩
  | hash => exact fun _ _ hn => absurd hn List.not_mem_nil
  | skiptable => exact ⟨[], skipCreate_inv, by simp⟩

end EngineKind

end KvStore
