import KvStore.SyncClient
import KvStore.Theorems.HashEngine
import Mathlib.Algebra.Order.BigOperators.Group.List

/-! # The slot of a key

The sum of the signed bytes of a key may be negative, and the remainder that `_hash` takes keeps its sign. So
the index of a key lies in the table exactly when the sum is not negative or a multiple of the table size. -/

namespace KvStore

/-- The sum of the bytes of a key, each read as a signed `char`. -/
def signedSum (key : CString) : Int := (key.bytes.map fun c => c.toInt8.toInt).sum

/-- The keys whose index lies in the table. -/
def SumOk (key : CString) : Prop := 0 ≤ signedSum key ∨ 1024 ∣ signedSum key

section Slot

/-- Short sums do not overflow. -/
theorem hashSum_eq {bytes : List UInt8} {n : Nat} {sum : Int} (hn : n + bytes.length < 2 ^ 24)
    (hsum : -(128 * n) ≤ sum ∧ sum ≤ 128 * n) :
    hashSum sum bytes = sum + (bytes.map fun c => c.toInt8.toInt).sum := by
  induction bytes generalizing n sum with
  | nil => simp [hashSum]
  | cons c bytes ih =>
    have hlow := c.toInt8.le_toInt
    have hhigh := c.toInt8.toInt_lt
    rw [List.length_cons] at hn
    have hwrap : (sum + c.toInt8.toInt).bmod UInt32.size = sum + c.toInt8.toInt :=
      Int.bmod_eq_of_le_mul_two (by rw [UInt32.size]; omega) (by rw [UInt32.size]; omega)
    rw [hashSum, hwrap, ih (n := n + 1) (by omega) (by omega), List.map_cons, List.sum_cons, Int.add_assoc]

theorem tmod_range_iff {x b : Int} (hb : 0 < b) : (0 ≤ x.tmod b ∧ x.tmod b < b) ↔ (0 ≤ x ∨ b ∣ x) := by
  have hlt := Int.tmod_lt_of_pos x hb
  constructor
  · rintro ⟨h, -⟩
    rcases Int.le_total 0 x with hx | hx
    · exact Or.inl hx
    · right
      have hneg := Int.tmod_nonneg b (Int.neg_nonneg_of_nonpos hx)
      rw [Int.neg_tmod] at hneg
      exact Int.dvd_iff_tmod_eq_zero.mpr (by omega)
  · rintro (hx | hx)
    · exact ⟨Int.tmod_nonneg b hx, hlt⟩
    · rw [Int.tmod_eq_zero_of_dvd hx] at hlt ⊢
      exact ⟨le_refl 0, hlt⟩

theorem slotInRange_iff {key : CString} (h : key.strlen < 2 ^ 24) : SlotInRange key ↔ SumOk key := by
  have hsum : hashSum 0 key.bytes = signedSum key := by
    rw [hashSum_eq (n := 0) (by rw [CString.strlen] at h; omega) (by omega)]
    exact Int.zero_add _
  unfold SlotInRange hash
  rw [hsum]
  exact tmod_range_iff (by decide)

theorem toInt_ascii {c : UInt8} (h : c < 128) : 0 ≤ c.toInt8.toInt := by
  have hlt : c.toNat < 128 := h
  have htoInt : c.toInt8.toInt = (c.toNat : Int).bmod 256 := by
    simp only [UInt8.toInt8, Int8.toInt, BitVec.toInt_eq_toNat_bmod]
    rfl
  rw [htoInt, Int.bmod_eq_of_le_mul_two (by omega) (by omega)]
  exact Int.natCast_nonneg _

/-- The index of an ASCII key lies in the table. -/
theorem slotInRange_of_ascii {key : CString} (h : ∀ c ∈ key.bytes, c < 128) (hlen : key.strlen < 2 ^ 24) :
    SlotInRange key := by
  refine (slotInRange_iff hlen).mpr (Or.inl (List.sum_nonneg ?_))
  intro x hx
  obtain ⟨c, hc, rfl⟩ := List.mem_map.mp hx
  exact toInt_ascii (h c hc)

end Slot

/-! ### The operations and the buckets they read -/

/-- An operation of the hash engine. -/
inductive HashOp where
  | call (c : Call)
  | getTimestamp (key : CString)
  | sync (env : Nat → Env) (data : List SyncData)

/-- The key of a call. -/
def Call.key : Call → Option CString
  | .set _ k _ => k
  | .setWithTimestamp _ k _ _ => k
  | .modify _ k _ => k
  | .modifyWithTimestamp _ k _ _ => k
  | .delete k => k
  | .get k => k
  | .exist k => k
  | .count => none

namespace HashOp

/-- The keys whose buckets an operation reads, in order. -/
def keys : HashOp → List CString
  | .call c => c.key.toList
  | .getTimestamp key => [key]
  | .sync _ data => data.map fun item => .ofBytes item.key

/-- The allocations of a merge succeed; a merge that fails early reads no further buckets. -/
def Allocates : HashOp → Prop
  | .sync env _ => ∀ n, (env n).Allocates
  | _ => True

/-- The operation reads memory that it may not read. -/
def Faults (H : Hash) : HashOp → Prop
  | .call c => hashEngine.exec H c = none
  | .getTimestamp key => kvsHashGetTimestamp H key = none
  | .sync env data => syncDataToLocalHashEngine env H data = none

end HashOp

/-- No node holds a pointer to a freed value. -/
def Hash.Intact (H : Hash) : Prop := ∀ i, ∀ n ∈ H.table i, ∃ v, n.value = .str v

section Access
variable {H H' : Hash} {key v : CString} {env : Env} {t : UInt64} {slot : Int} {chain c : List HashNode}

theorem SlotInRange.exists_chain (hk : SlotInRange key) (hsize : H.maxSlots = maxTableSize) :
    ∃ chain, H.chain (hash key H.maxSlots) = some chain := by
  rw [Hash.chain, hsize]
  exact ⟨_, if_pos hk⟩

theorem chain_of_not_slotInRange (hk : ¬SlotInRange key) (hsize : H.maxSlots = maxTableSize) :
    H.chain (hash key H.maxSlots) = none := by
  rw [Hash.chain, hsize]
  exact if_neg hk

theorem Hash.Intact.of_chain (h : H.Intact) (hc : H.chain slot = some chain) : ∀ n ∈ chain, ∃ v, n.value = .str v := by
  unfold Hash.chain at hc
  split at hc
  · cases hc
    exact h _
  · cases hc

theorem Hash.Intact.setChain (h : H.Intact) (hc : ∀ n ∈ c, ∃ v, n.value = .str v)
    (ht : H'.table = (H.setChain slot c).table) : H'.Intact := by
  intro i n hn
  rw [ht] at hn
  by_cases hi : i = slot.toNat
  · subst hi
    rw [setChain_table_self] at hn
    exact hc n hn
  · rw [setChain_table_ne hi] at hn
    exact h i n hn

/-- An operation on a key whose bucket is outside the table faults. -/
theorem faults_of_chain_none {op : HashOp} (hop : op.keys.head? = some key)
    (hc : H.chain (hash key H.maxSlots) = none) : op.Faults H := by
  cases op with
  | call c =>
    cases c <;> simp only [HashOp.keys, Call.key, Option.toList, List.head?_cons, List.head?_nil, Option.some.injEq,
      reduceCtorEq] at hop <;> subst hop <;>
      simp [HashOp.Faults, Engine.exec, hashEngine, kvsHashSet, kvsHashSetWithTimestamp, kvsHashModify,
        kvsHashModifyWithTimestamp, kvsHashDelete, kvsHashGet, kvsHashExist, hc]
  | getTimestamp k =>
    cases hop
    simp [HashOp.Faults, kvsHashGetTimestamp, hc]
  | sync env data =>
    cases data with
    | nil => cases hop
    | cons item data =>
      cases hop
      simp [HashOp.Faults, syncDataToLocalHashEngine, syncDataToLocal, hashEngine, kvsHashGet, hc]

theorem findHashNode_mem {n : HashNode} (h : findHashNode key chain = some n) : n ∈ chain := by
  induction chain with
  | nil => cases h
  | cons n' chain ih =>
    rw [findHashNode] at h
    split at h
    · cases h
      exact List.mem_cons_self
    · exact List.mem_cons_of_mem n' (ih h)

theorem unlinkHashNode_mem {n : HashNode} (h : unlinkHashNode key chain = some (n, c)) : n ∈ chain := by
  induction chain generalizing c with
  | nil => cases h
  | cons n' chain ih =>
    rw [unlinkHashNode] at h
    split at h
    · cases h
      exact List.mem_cons_self
    · obtain ⟨⟨tmp, rest⟩, hu, heq⟩ := Option.map_eq_some_iff.mp h
      cases heq
      exact List.mem_cons_of_mem n' (ih hu)

theorem writeHashNode_intact (h : ∀ n ∈ chain, ∃ v, n.value = .str v) :
    ∀ n ∈ writeHashNode key (fun n => { n with value := .str v, timestamp := t }) chain, ∃ v, n.value = .str v := by
  induction chain with
  | nil => exact h
  | cons n' chain ih =>
    rw [writeHashNode]
    split
    · intro n hn
      rcases List.mem_cons.mp hn with rfl | hn
      · exact ⟨v, rfl⟩
      · exact h n (List.mem_cons_of_mem n' hn)
    · intro n hn
      rcases List.mem_cons.mp hn with rfl | hn
      · exact h _ List.mem_cons_self
      · exact ih (fun n hn => h n (List.mem_cons_of_mem n' hn)) n hn

/-- What the calls that read a bucket of intact nodes do. -/
theorem Hash.Intact.modify (h : H.Intact) (env : Env) (v : CString) (t : UInt64)
    (hc : H.chain (hash key H.maxSlots) = some chain) :
    (findHashNode key chain = none ∧ kvsHashModifyWithTimestamp env H key v t = some (H, -2)) ∨
    ∃ c n, kvsHashModifyWithTimestamp env H key v t = some (H.setChain (hash key H.maxSlots) c, n) ∧
      (env.alloc 0 = true → n = 0 ∧ ∀ n ∈ c, ∃ v, n.value = .str v) := by
  simp only [kvsHashModifyWithTimestamp, Option.bind_eq_bind]
  rw [hc, Option.bind_some]
  cases hf : findHashNode key chain with
  | none => exact Or.inl ⟨rfl, rfl⟩
  | some n =>
    right
    obtain ⟨w, hw⟩ := h.of_chain hc n (findHashNode_mem hf)
    simp only [hw, CharPtr.free, Option.bind_some]
    split
    · next ha => exact ⟨_, _, rfl, fun ha' => absurd (ha.symm.trans ha') (by decide)⟩
    · exact ⟨_, _, rfl, fun _ => ⟨rfl, writeHashNode_intact (h.of_chain hc)⟩⟩

theorem Hash.set_chain (hc : H.chain (hash key H.maxSlots) = some chain) :
    kvsHashSetWithTimestamp env H key v t ≠ none := by
  simp only [kvsHashSetWithTimestamp, Option.bind_eq_bind]
  rw [hc, Option.bind_some]
  cases findHashNode key chain with
  | some n => simp
  | none => cases createHashNode env key v t <;> simp

theorem Hash.get_chain (hc : H.chain (hash key H.maxSlots) = some chain) : kvsHashGet H key ≠ none := by
  simp only [kvsHashGet, Option.bind_eq_bind]
  rw [hc, Option.bind_some]
  cases findHashNode key chain <;> simp

theorem Hash.Intact.delete (h : H.Intact) (hc : H.chain (hash key H.maxSlots) = some chain) :
    kvsHashDelete H key ≠ none := by
  simp only [kvsHashDelete, Option.bind_eq_bind]
  rw [hc, Option.bind_some]
  have hstr := h.of_chain hc
  cases chain with
  | nil => simp
  | cons n chain =>
    obtain ⟨w, hw⟩ := hstr n List.mem_cons_self
    simp only [hw, CharPtr.free, Option.bind_some]
    split
    · simp
    · cases hu : unlinkHashNode key chain with
      | none => simp
      | some u =>
        obtain ⟨w', hw'⟩ := hstr u.1 (List.mem_cons_of_mem n (unlinkHashNode_mem hu))
        simp [hw']

theorem Hash.Intact.call_runs (h : H.Intact) {c : Call}
    (hc : ∀ k, c.key = some k → ∃ chain, H.chain (hash k H.maxSlots) = some chain) : hashEngine.exec H c ≠ none := by
  have hset : ∀ {env k v t}, (∃ chain, H.chain (hash k H.maxSlots) = some chain) →
      kvsHashSetWithTimestamp env H k v t ≠ none := fun ⟨_, hc⟩ => Hash.set_chain hc
  have hmod : ∀ {env k v t}, (∃ chain, H.chain (hash k H.maxSlots) = some chain) →
      kvsHashModifyWithTimestamp env H k v t ≠ none := by
    rintro env k v t ⟨chain, hc⟩
    rcases h.modify env v t hc with ⟨-, hm⟩ | ⟨c, n, hm, -⟩ <;> simp [hm]
  cases c with
  | set env k v => simpa [Engine.exec, hashEngine, kvsHashSet] using hset (hc k rfl)
  | setWithTimestamp env k v t => simpa [Engine.exec, hashEngine, kvsHashSet] using hset (hc k rfl)
  | modify env k v => simpa [Engine.exec, hashEngine, kvsHashModify] using hmod (hc k rfl)
  | modifyWithTimestamp env k v t => simpa [Engine.exec, hashEngine, kvsHashModify] using hmod (hc k rfl)
  | delete k =>
    obtain ⟨chain, hc⟩ := hc k rfl
    simpa [Engine.exec, hashEngine] using h.delete hc
  | get k =>
    obtain ⟨chain, hc⟩ := hc k rfl
    simpa [Engine.exec, hashEngine] using Hash.get_chain hc
  | exist k =>
    obtain ⟨chain, hc⟩ := hc k rfl
    obtain ⟨p, hp⟩ := Option.ne_none_iff_exists'.mp (Hash.get_chain hc)
    have hne : kvsHashExist H k ≠ none := by
      simp only [kvsHashExist, Option.bind_eq_bind]
      rw [hp, Option.bind_some]
      split <;> simp
    simpa [Engine.exec, hashEngine] using hne
  | count => simp [Engine.exec, hashEngine, kvsHashCount]

/-- One record of a merge whose bucket lies in the table. -/
theorem Hash.Intact.syncOne (h : H.Intact) {env : Nat → Env} (henv : (env 0).Allocates) {item : SyncData}
    (data : List SyncData) (hc : H.chain (hash (.ofBytes item.key) H.maxSlots) = some chain) :
    ∃ H', syncDataToLocalHashEngine env H (item :: data) = syncDataToLocalHashEngine (fun n => env (n + 1)) H' data ∧
      H'.Intact ∧ H'.maxSlots = H.maxSlots := by
  cases hf : findHashNode (.ofBytes item.key) chain with
  | none =>
    have hget : kvsHashGet H (.ofBytes item.key) = some .null := by simp [kvsHashGet, hc, hf]
    have hset := createHashNode_of_allocates (k := .ofBytes item.key) (v := .ofBytes item.value) (t := item.timestamp)
      henv
    refine ⟨{ H.setChain (hash (.ofBytes item.key) H.maxSlots)
      (⟨.ofBytes item.key, .str (.ofBytes item.value), item.timestamp⟩ :: chain) with count := H.count + 1 }, ?_,
      h.setChain ?_ rfl, rfl⟩
    · simp [syncDataToLocalHashEngine, syncDataToLocal, hashEngine, hget, kvsHashSetWithTimestamp, hc, hf, hset]
    · intro n hn
      rcases List.mem_cons.mp hn with rfl | hn
      · exact ⟨_, rfl⟩
      · exact h.of_chain hc n hn
  | some n =>
    obtain ⟨w, hw⟩ := h.of_chain hc n (findHashNode_mem hf)
    have hget : kvsHashGet H (.ofBytes item.key) = some (.str w) := by simp [kvsHashGet, hc, hf, hw]
    have hts : kvsHashGetTimestamp H (.ofBytes item.key) = some n.timestamp := by simp [kvsHashGetTimestamp, hc, hf]
    by_cases hnew : n.timestamp < item.timestamp
    · rcases h.modify (env 0) (.ofBytes item.value) item.timestamp hc with ⟨hn, -⟩ | ⟨c, r, hm, hr⟩
      · rw [hf] at hn
        cases hn
      · obtain ⟨rfl, hc'⟩ := hr (henv 0)
        refine ⟨H.setChain (hash (.ofBytes item.key) H.maxSlots) c, ?_, h.setChain hc' rfl, rfl⟩
        simp [syncDataToLocalHashEngine, syncDataToLocal, hashEngine, hget, hts, hnew, hm]
    · exact ⟨H, by simp [syncDataToLocalHashEngine, syncDataToLocal, hashEngine, hget, hts, hnew], h, rfl⟩

/-! ### Reachable stores -/

theorem kvsHashSetWithTimestamp_maxSlots {n : Int} (h : kvsHashSetWithTimestamp env H key v t = some (H', n)) :
    H'.maxSlots = H.maxSlots := by
  simp only [kvsHashSetWithTimestamp, Option.bind_eq_bind, Option.bind_eq_some_iff] at h
  obtain ⟨chain, -, h⟩ := h
  cases hf : findHashNode key chain <;> simp only [hf] at h
  · cases hn : createHashNode env key v t <;> simp only [hn] at h <;> cases h <;> rfl
  · cases h
    rfl

theorem kvsHashModifyWithTimestamp_maxSlots {n : Int}
    (h : kvsHashModifyWithTimestamp env H key v t = some (H', n)) : H'.maxSlots = H.maxSlots := by
  simp only [kvsHashModifyWithTimestamp, Option.bind_eq_bind, Option.bind_eq_some_iff] at h
  obtain ⟨chain, -, h⟩ := h
  cases hf : findHashNode key chain <;> simp only [hf] at h
  · cases h
    rfl
  · obtain ⟨-, -, h⟩ := Option.bind_eq_some_iff.mp h
    split at h <;> cases h <;> rfl

theorem kvsHashDelete_maxSlots {n : Int} (h : kvsHashDelete H key = some (H', n)) : H'.maxSlots = H.maxSlots := by
  simp only [kvsHashDelete, Option.bind_eq_bind, Option.bind_eq_some_iff] at h
  obtain ⟨chain, -, h⟩ := h
  cases chain with
  | nil =>
    cases h
    rfl
  | cons n' chain =>
    simp only at h
    split at h
    · obtain ⟨-, -, h⟩ := Option.bind_eq_some_iff.mp h
      cases h
      rfl
    · cases hu : unlinkHashNode key chain <;> simp only [hu] at h
      · cases h
        rfl
      · obtain ⟨-, -, h⟩ := Option.bind_eq_some_iff.mp h
        cases h
        rfl

/-- No function changes the size of the table. -/
theorem hashKeepsSize : hashEngine.Keeps fun H => H.maxSlots = maxTableSize where
  set h hs := (kvsHashSetWithTimestamp_maxSlots hs).trans h
  modify h hs := (kvsHashModifyWithTimestamp_maxSlots hs).trans h
  delete h hs := (kvsHashDelete_maxSlots hs).trans h

theorem hash_runs_maxSlots {calls : List Call} {outs : List Ret}
    (h : Run.runs hashEngine.exec kvsHashCreate calls = some (H, outs)) : H.maxSlots = maxTableSize :=
  hashKeepsSize.runs hashLaws.set_eq hashLaws.modify_eq rfl h

/-- A merge into an intact store runs exactly when every record's bucket lies in the table. -/
theorem Hash.Intact.sync_iff {data : List SyncData} : ∀ {H : Hash} {env : Nat → Env}, H.Intact →
    H.maxSlots = maxTableSize → (∀ n, (env n).Allocates) →
    (syncDataToLocalHashEngine env H data ≠ none ↔ ∀ item ∈ data, SlotInRange (.ofBytes item.key)) := by
  induction data with
  | nil => exact fun _ _ _ => by simp [syncDataToLocalHashEngine, syncDataToLocal]
  | cons item data ih =>
    intro H env h hsize henv
    by_cases hk : SlotInRange (.ofBytes item.key)
    · obtain ⟨chain, hc⟩ := hk.exists_chain hsize
      obtain ⟨H', hs, h', hsize'⟩ := h.syncOne (henv 0) data hc
      rw [hs, ih h' (hsize'.trans hsize) fun n => henv (n + 1), List.forall_mem_cons]
      exact (and_iff_right hk).symm
    · have hf : HashOp.Faults H (.sync env (item :: data)) :=
        faults_of_chain_none rfl (chain_of_not_slotInRange hk hsize)
      constructor
      · exact fun hne => absurd hf hne
      · exact fun hall => absurd (hall item List.mem_cons_self) hk

theorem Hash.Intact.faults_iff {op : HashOp} (h : H.Intact) (hsize : H.maxSlots = maxTableSize) (henv : op.Allocates) :
    ¬op.Faults H ↔ ∀ k ∈ op.keys, SlotInRange k := by
  have hone : ∀ k, op.keys = [k] → ¬op.Faults H → SlotInRange k := by
    intro k hkeys hne
    by_contra hk
    exact hne (faults_of_chain_none (by rw [hkeys]; rfl) (chain_of_not_slotInRange hk hsize))
  cases op with
  | call c =>
    constructor
    · intro hne k hk
      have hkeys : (HashOp.call c).keys = [k] := by
        simp only [HashOp.keys, Option.mem_toList] at hk ⊢
        rw [hk]
        rfl
      exact hone k hkeys hne
    · intro hall
      exact h.call_runs fun k hk => (hall k (by simp [HashOp.keys, hk])).exists_chain hsize
  | getTimestamp k =>
    constructor
    · rintro hne k' hk'
      rw [List.mem_singleton.mp hk']
      exact hone k rfl hne
    · intro hall
      obtain ⟨chain, hc⟩ := (hall k List.mem_cons_self).exists_chain hsize
      simp only [HashOp.Faults, kvsHashGetTimestamp, Option.bind_eq_bind]
      rw [hc, Option.bind_some]
      cases findHashNode k chain <;> simp
  | sync env data =>
    rw [HashOp.keys, List.forall_mem_map]
    exact h.sync_iff hsize henv

end Access

/-- In a reachable store the index of a key lies in the table exactly when the sum of its bytes is fit, and an
    operation reads only buckets of the table exactly when its keys are fit. -/
theorem hash_slot_in_range_iff {calls : List Call} {H : Hash} {outs : List Ret}
    (hrun : Run.runs hashEngine.exec kvsHashCreate calls = some (H, outs)) :
    (∀ key : CString, key.strlen < 2 ^ 24 →
      ((0 ≤ hash key H.maxSlots ∧ hash key H.maxSlots < H.maxSlots) ↔ SumOk key)) ∧
    (∀ op : HashOp, (∀ k ∈ op.keys, k.strlen < 2 ^ 24) → H.Intact → op.Allocates →
      (¬op.Faults H ↔ ∀ k ∈ op.keys, SumOk k)) ∧
    ∀ (op : HashOp) (k : CString), op.keys.head? = some k → k.strlen < 2 ^ 24 → ¬SumOk k → op.Faults H := by
  have hsize := hash_runs_maxSlots hrun
  refine ⟨?_, ?_, ?_⟩
  · intro key hlen
    rw [hsize]
    exact slotInRange_iff hlen
  · intro op hlen h henv
    rw [h.faults_iff hsize henv]
    exact forall₂_congr fun k hk => slotInRange_iff (hlen k hk)
  · intro op k hop hlen hk
    exact faults_of_chain_none hop (chain_of_not_slotInRange (fun hin => hk ((slotInRange_iff hlen).mp hin)) hsize)

theorem hash_slot_in_range_iff_create :
    (∀ key : CString, key.strlen < 2 ^ 24 → ((0 ≤ hash key kvsHashCreate.maxSlots ∧
      hash key kvsHashCreate.maxSlots < kvsHashCreate.maxSlots) ↔ SumOk key)) ∧
    (∀ op : HashOp, (∀ k ∈ op.keys, k.strlen < 2 ^ 24) → kvsHashCreate.Intact → op.Allocates →
      (¬op.Faults kvsHashCreate ↔ ∀ k ∈ op.keys, SumOk k)) ∧
    ∀ (op : HashOp) (k : CString), op.keys.head? = some k → k.strlen < 2 ^ 24 → ¬SumOk k →
      op.Faults kvsHashCreate :=
  @hash_slot_in_range_iff [] kvsHashCreate [] rfl

/-- The UTF-8 string "é" has the index -148. -/
theorem hash_slot_negative : ¬∀ (calls : List Call) (H : Hash) (outs : List Ret) (key : CString),
    Run.runs hashEngine.exec kvsHashCreate calls = some (H, outs) → key.strlen < 2 ^ 24 →
      (0 ≤ hash key H.maxSlots ∧ hash key H.maxSlots < H.maxSlots) ∧ kvsHashGet H key ≠ none := by
  intro h
  have hslot := (h [] kvsHashCreate [] (.ofBytes [0xc3, 0xa9]) rfl (by decide)).1
  revert hslot
  decide

end KvStore
