import KvStore.Theorems.HashSlot

/-! What `kvs_hash_delete` returns: it tells a missing key from one that it has deleted only when the bucket of the key
    is empty. -/

namespace KvStore

/-- The chain of the key has a node for it. -/
def Hash.Stored (H : Hash) (key : CString) : Prop :=
  ∃ chain, H.chain (hash key H.maxSlots) = some chain ∧ ∃ n ∈ chain, n.key = key

/-- The deletion returns 0 exactly when the key was stored, and the counter goes down by one then, and else stays. -/
def Hash.DeleteTells (H : Hash) (key : CString) : Prop :=
  ∃ H' n count count', kvsHashDelete H key = some (H', n) ∧ kvsHashCount H = some count ∧
    kvsHashCount H' = some count' ∧ (n = 0 ↔ H.Stored key) ∧ (count' = count - 1 ↔ H.Stored key) ∧
    (¬H.Stored key → count' = count)

/-- The key is stored, with a value that no failed `modify` has freed, or its bucket is empty. -/
def Hash.Distinguishes (H : Hash) (key : CString) : Prop :=
  (H.Stored key ∧ kvsHashGet H key ≠ some .freed) ∨ H.chain (hash key H.maxSlots) = some []

section Delete
variable {H : Hash} {key : CString} {chain : List HashNode}

theorem Hash.stored_iff (hc : H.chain (hash key H.maxSlots) = some chain) :
    H.Stored key ↔ ∃ n ∈ chain, n.key = key := by
  constructor
  · rintro ⟨chain', hc', h⟩
    rw [hc, Option.some.injEq] at hc'
    exact hc' ▸ h
  · exact fun h => ⟨chain, hc, h⟩

theorem Hash.deleteTells_iff (hc : H.chain (hash key H.maxSlots) = some chain) :
    H.DeleteTells key ↔ H.Distinguishes key := by
  rcases chain_cases key chain with hn | ⟨c₁, n, c₂, rfl, hk, hn⟩
  · have hstored : ¬H.Stored key := fun h => by
      obtain ⟨n, hmem, hk⟩ := (Hash.stored_iff hc).mp h
      exact hn n hmem hk
    have hdelete := Hash.delete_absent hc hn
    have hnil : H.Distinguishes key ↔ chain = [] := by
      simp [Hash.Distinguishes, hstored, hc]
    rw [hnil]
    constructor
    · rintro ⟨H', r, count, count', hs, -, -, hr, -⟩
      rw [hdelete] at hs
      cases hs
      by_contra hne
      exact hstored (hr.mp (if_neg hne))
    · rintro rfl
      refine ⟨H, _, H.count, H.count, hdelete, rfl, rfl, iff_of_false (by decide) hstored, iff_of_false ?_ hstored,
        fun _ => rfl⟩
      omega
  · have hstored : H.Stored key := ⟨_, hc, n, by simp, hk⟩
    have hget := Hash.get_chain_eq hn hk hc
    have hlive : H.Distinguishes key ↔ n.value ≠ .freed := by
      simp [Hash.Distinguishes, hstored, hget, hc]
    rw [hlive]
    constructor
    · rintro ⟨H', r, count, count', hs, -⟩ hfreed
      rw [Hash.delete_freed hn hk hfreed hc] at hs
      cases hs
    · intro hv
      have hfree : n.value.free = some () := by
        cases hval : n.value with
        | freed => exact absurd hval hv
        | null => rfl
        | str s => rfl
      exact ⟨_, 0, H.count, H.count + -1, Hash.delete_chain hn hk hfree hc, rfl, rfl, iff_of_true rfl hstored,
        iff_of_true rfl hstored, fun h => absurd hstored h⟩

end Delete

/-- In every store that calls lead to, whatever their allocations come to: a deletion tells whether the key was stored
    exactly when it is stored with a live value or its bucket is empty. -/
theorem hash_delete_tells_iff {calls : List Call} {H : Hash} {outs : List Ret}
    (hrun : Run.runs hashEngine.exec kvsHashCreate calls = some (H, outs)) {key : CString} (hk : SlotInRange key) :
    H.DeleteTells key ↔ H.Distinguishes key := by
  obtain ⟨chain, hc⟩ := hk.exists_chain (hash_runs_maxSlots hrun)
  exact Hash.deleteTells_iff hc

/-- One key, whose bytes have the sum 195. -/
def oneSet : List Call :=
  [.set (.calm 0) (.ofBytes [97, 98]) (.ofBytes [1])]

/-- The deletion of the key. -/
theorem hash_delete_tells_iff_present : ∃ H outs, Run.runs hashEngine.exec kvsHashCreate oneSet = some (H, outs) ∧
    (H.DeleteTells (.ofBytes [97, 98]) ↔ H.Distinguishes (.ofBytes [97, 98])) := by
  refine ⟨_, _, rfl, ?_⟩
  exact @hash_delete_tells_iff oneSet _ _ rfl (.ofBytes [97, 98]) (by decide)

/-- A key with the same sum: its deletion returns 0 and removes nothing. -/
theorem hash_delete_sameSum : ∃ H outs, Run.runs hashEngine.exec kvsHashCreate oneSet = some (H, outs) ∧
    kvsHashGet H (.ofBytes [98, 97]) = some .null ∧ kvsHashDelete H (.ofBytes [98, 97]) = some (H, 0) ∧
      ¬H.DeleteTells (.ofBytes [98, 97]) := by
  refine ⟨_, _, rfl, rfl, rfl, ?_⟩
  rintro ⟨H', n, count, count', hdelete, -, -, hstored, -⟩
  cases hdelete
  obtain ⟨chain, hc, n, hn, hk⟩ := hstored.mp rfl
  cases hc
  have hab : n = ⟨.ofBytes [97, 98], .str (.ofBytes [1]), 0⟩ := List.mem_singleton.mp hn
  subst hab
  revert hk
  decide

end KvStore
