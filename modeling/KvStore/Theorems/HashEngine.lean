import KvStore.Hash
import KvStore.MapSpec

/-! The calls of the hash engine do what the map machine does, as long as the slot of the key lies in the
    table. -/

namespace KvStore
open FiniteMap

def HashNode.entry (n : HashNode) : CString × CharPtr × UInt64 := (n.key, n.value, n.timestamp)

/-- The entries of the table, slot after slot. -/
def Hash.entries (H : Hash) : List (CString × CharPtr × UInt64) :=
  (List.range maxTableSize).flatMap fun i => (H.table i).map HashNode.entry

/-- The store holds the map `m`: its nodes are the entries of `m`, each once and in the slot of its key. -/
structure HashHolds (H : Hash) (m : Map CString Entry) : Prop where
  maxSlots : H.maxSlots = maxTableSize
  count : H.count = H.entries.length
  placed : ∀ i, ∀ n ∈ H.table i, hash n.key maxTableSize = i
  lists : Lists H.entries (m.mapVal Entry.stored)

/-- The slot of the key lies in a table of the size that `kvs_hash_create` makes. -/
def SlotInRange (k : CString) : Prop := 0 ≤ hash k maxTableSize ∧ hash k maxTableSize < maxTableSize

instance (k : CString) : Decidable (SlotInRange k) := inferInstanceAs (Decidable (_ ∧ _))

/-- What `delete` answers for a missing key depends on its bucket, so these laws leave `delete` out. -/
def hashAnswers : Answers where
  full _ := none
  modifyAbsent _ := -2
  deleteAbsent := -2
  existAbsent := -1

section Chains
variable {k : CString} {chain c₁ c₂ : List HashNode} {n : HashNode} {f : HashNode → HashNode}

theorem findHashNode_none (h : ∀ n ∈ chain, n.key ≠ k) : findHashNode k chain = none := by
  induction chain with
  | nil => rfl
  | cons n chain ih =>
    rw [findHashNode, if_neg (by simpa using h n List.mem_cons_self)]
    exact ih fun n' hn' => h n' (List.mem_cons_of_mem n hn')

theorem findHashNode_append (h : ∀ n ∈ c₁, n.key ≠ k) (hk : n.key = k) :
    findHashNode k (c₁ ++ n :: c₂) = some n := by
  induction c₁ with
  | nil => simp [findHashNode, hk]
  | cons n' c₁ ih =>
    rw [List.cons_append, findHashNode, if_neg (by simpa using h n' List.mem_cons_self)]
    exact ih fun n'' hn'' => h n'' (List.mem_cons_of_mem n' hn'')

theorem writeHashNode_append (h : ∀ n ∈ c₁, n.key ≠ k) (hk : n.key = k) :
    writeHashNode k f (c₁ ++ n :: c₂) = c₁ ++ f n :: c₂ := by
  induction c₁ with
  | nil => simp [writeHashNode, hk]
  | cons n' c₁ ih =>
    rw [List.cons_append, writeHashNode, if_neg (by simpa using h n' List.mem_cons_self),
      ih fun n'' hn'' => h n'' (List.mem_cons_of_mem n' hn'')]
    rfl

theorem unlinkHashNode_append (h : ∀ n ∈ c₁, n.key ≠ k) (hk : n.key = k) :
    unlinkHashNode k (c₁ ++ n :: c₂) = some (n, c₁ ++ c₂) := by
  induction c₁ with
  | nil => simp [unlinkHashNode, hk]
  | cons n' c₁ ih =>
    rw [List.cons_append, unlinkHashNode, if_neg (by simpa using h n' List.mem_cons_self),
      ih fun n'' hn'' => h n'' (List.mem_cons_of_mem n' hn'')]
    rfl

theorem unlinkHashNode_none (h : ∀ n ∈ chain, n.key ≠ k) : unlinkHashNode k chain = none := by
  induction chain with
  | nil => rfl
  | cons n chain ih =>
    rw [unlinkHashNode, if_neg (by simpa using h n List.mem_cons_self),
      ih fun n' hn' => h n' (List.mem_cons_of_mem n hn')]
    rfl

/-- A key has no node in a chain, or a first one. -/
theorem chain_cases (k : CString) (chain : List HashNode) :
    (∀ n ∈ chain, n.key ≠ k) ∨ ∃ c₁ n c₂, chain = c₁ ++ n :: c₂ ∧ n.key = k ∧ ∀ n' ∈ c₁, n'.key ≠ k := by
  induction chain with
  | nil => exact Or.inl (by simp)
  | cons n chain ih =>
    by_cases hn : n.key = k
    · exact Or.inr ⟨[], n, chain, rfl, hn, by simp⟩
    · rcases ih with h | ⟨c₁, n', c₂, rfl, hk, h⟩
      · exact Or.inl (by simpa [hn] using h)
      · exact Or.inr ⟨n :: c₁, n', c₂, rfl, hk, by simpa [hn] using h⟩

end Chains

section Calls
variable {H : Hash} {m : Map CString Entry} {k v : CString} {e : Entry} {env : Env} {t : UInt64}
  {chain c : List HashNode}

theorem setChain_table_self {slot : Int} : (H.setChain slot c).table slot.toNat = c := Function.update_self ..

theorem setChain_table_ne {slot : Int} {i : Nat} (h : i ≠ slot.toNat) : (H.setChain slot c).table i = H.table i :=
  Function.update_of_ne h ..

theorem SlotInRange.toNat_lt (hk : SlotInRange k) : (hash k maxTableSize).toNat < maxTableSize := by
  obtain ⟨h₀, h₁⟩ := hk
  omega

theorem SlotInRange.toNat_eq (hk : SlotInRange k) : ((hash k maxTableSize).toNat : Int) = hash k maxTableSize :=
  Int.toNat_of_nonneg hk.1

/-- The bucket that a call on the key reads. -/
theorem HashHolds.chain_eq (h : HashHolds H m) (hk : SlotInRange k) :
    H.chain (hash k maxTableSize) = some (H.table (hash k maxTableSize).toNat) := by
  unfold Hash.chain
  rw [h.maxSlots]
  exact if_pos hk

/-- The nodes of a key all lie in its bucket. -/
theorem HashHolds.absent_iff (h : HashHolds H m) (hk : SlotInRange k) :
    m k = none ↔ ∀ n ∈ H.table (hash k maxTableSize).toNat, n.key ≠ k := by
  have hm : m k = none ↔ (m.mapVal Entry.stored) k = none := by simp
  rw [hm, h.lists.apply_eq_none]
  simp only [Hash.entries, List.map_flatMap, List.map_map, List.mem_flatMap, List.mem_range, List.mem_map, not_exists,
    not_and, Function.comp_apply, HashNode.entry]
  constructor
  · intro hn n hmem
    exact hn _ hk.toNat_lt n hmem
  · rintro hn i - n hmem rfl
    have := h.placed i n hmem
    exact hn n (by rw [this, Int.toNat_natCast]; exact hmem) rfl

theorem Hash.setChain_self (hs : chain = H.table (hash k maxTableSize).toNat) :
    H.setChain (hash k maxTableSize) chain = H := by
  simp [Hash.setChain, hs]

/-- The entries of the table around one bucket. -/
theorem entries_setChain (H : Hash) (hk : SlotInRange k) :
    ∃ l₁ l₂, ∀ c, (H.setChain (hash k maxTableSize) c).entries = l₁ ++ c.map HashNode.entry ++ l₂ := by
  obtain ⟨l₁, l₂, h⟩ := exists_flatMap_update hk.toNat_lt fun i => (H.table i).map HashNode.entry
  refine ⟨l₁, l₂, fun c => ?_⟩
  rw [← h, Hash.entries]
  refine List.flatMap_congr fun j _ => ?_
  by_cases hj : j = (hash k maxTableSize).toNat
  · rw [hj, Function.update_self, setChain_table_self]
  · rw [Function.update_of_ne hj, setChain_table_ne hj]

/-- A store whose bucket is rewritten holds the map that the rewritten bucket gives, when the bucket only
    holds keys of its slot. -/
theorem HashHolds.setChain (h : HashHolds H m) {m' : Map CString Entry} {d : Int} (hk : SlotInRange k)
    (hplaced : ∀ n ∈ c, n.key = k ∨ n ∈ H.table (hash k maxTableSize).toNat)
    (hcount : (c.length : Int) = (H.table (hash k maxTableSize).toNat).length + d)
    (hlists : ∀ l₁ l₂, Lists (l₁ ++ (H.table (hash k maxTableSize).toNat).map HashNode.entry ++ l₂)
      (m.mapVal Entry.stored) → Lists (l₁ ++ c.map HashNode.entry ++ l₂) (m'.mapVal Entry.stored)) :
    HashHolds { H.setChain (hash k maxTableSize) c with count := H.count + d } m' where
  maxSlots := h.maxSlots
  count := by
    obtain ⟨l₁, l₂, hl⟩ := entries_setChain H hk
    have hnew := congrArg List.length (hl c)
    have hold := hl (H.table (hash k maxTableSize).toNat)
    rw [Hash.setChain_self rfl] at hold
    have hold := congrArg List.length hold
    simp only [List.length_append, List.length_map] at hnew hold
    change H.count + d = (H.setChain (hash k maxTableSize) c).entries.length
    rw [h.count, hnew, hold]
    omega
  placed i n hn := by
    change n ∈ (H.setChain (hash k maxTableSize) c).table i at hn
    by_cases hi : i = (hash k maxTableSize).toNat
    · subst hi
      rw [setChain_table_self] at hn
      rcases hplaced n hn with rfl | hn
      · exact hk.toNat_eq.symm
      · exact h.placed _ n hn
    · rw [setChain_table_ne hi] at hn
      exact h.placed i n hn
  lists := by
    obtain ⟨l₁, l₂, hl⟩ := entries_setChain H hk
    have hH := hl (H.table (hash k maxTableSize).toNat)
    rw [Hash.setChain_self rfl] at hH
    have := hlists l₁ l₂ (hH ▸ h.lists)
    rw [← hl] at this
    exact this

/-- A key of the map finds its node. -/
theorem HashHolds.find_present (h : HashHolds H m) (hk : SlotInRange k) (hm : m k = some e) :
    ∃ c₁ n c₂, H.table (hash k maxTableSize).toNat = c₁ ++ n :: c₂ ∧ (∀ n' ∈ c₁, n'.key ≠ k) ∧ n.key = k ∧
      n.value = .str e.value ∧ n.timestamp = e.timestamp ∧
      findHashNode k (H.table (hash k maxTableSize).toNat) = some n := by
  rcases chain_cases k (H.table (hash k maxTableSize).toNat) with hn | ⟨c₁, n, c₂, hc, rfl, hn⟩
  · rw [(h.absent_iff hk).mpr hn] at hm
    cases hm
  · obtain ⟨l₁, l₂, hl⟩ := entries_setChain H hk
    have hH := hl (H.table (hash n.key maxTableSize).toNat)
    rw [Hash.setChain_self rfl, hc, List.map_append, List.map_cons, ← List.append_assoc, List.append_assoc,
      List.cons_append] at hH
    have hentry := (hH ▸ h.lists).apply_middle
    rw [Map.mapVal_apply, hm, Option.map_some, Option.some.injEq] at hentry
    obtain ⟨hv, ht⟩ := Prod.mk.inj hentry
    refine ⟨c₁, n, c₂, hc, hn, rfl, hv.symm, ht.symm, ?_⟩
    rw [hc]
    exact findHashNode_append hn rfl

theorem HashHolds.find_absent (h : HashHolds H m) (hk : SlotInRange k) (hm : m k = none) :
    findHashNode k (H.table (hash k maxTableSize).toNat) = none := findHashNode_none ((h.absent_iff hk).mp hm)

/-! ### The empty store -/

theorem hashCreate_holds : HashHolds kvsHashCreate Map.empty where
  maxSlots := rfl
  count := by simp [Hash.entries, kvsHashCreate]
  placed := by simp [kvsHashCreate]
  lists := by
    have : kvsHashCreate.entries = [] := by simp [Hash.entries, kvsHashCreate]
    rw [this]
    exact Lists.nil

/-! ### Reads -/

theorem HashHolds.get_present (h : HashHolds H m) (hk : SlotInRange k) (hm : m k = some e) :
    kvsHashGet H k = some (.str e.value) := by
  obtain ⟨-, n, -, -, -, -, hv, -, hf⟩ := h.find_present hk hm
  simp only [kvsHashGet, Option.bind_eq_bind]
  rw [h.maxSlots, h.chain_eq hk, Option.bind_some, hf, ← hv]

theorem HashHolds.get_absent (h : HashHolds H m) (hk : SlotInRange k) (hm : m k = none) :
    kvsHashGet H k = some .null := by
  simp only [kvsHashGet, Option.bind_eq_bind]
  rw [h.maxSlots, h.chain_eq hk, Option.bind_some, h.find_absent hk hm]

theorem HashHolds.getTimestamp (h : HashHolds H m) (hk : SlotInRange k) (hm : m k = some e) :
    kvsHashGetTimestamp H k = some e.timestamp := by
  obtain ⟨-, n, -, -, -, -, -, ht, hf⟩ := h.find_present hk hm
  simp only [kvsHashGetTimestamp, Option.bind_eq_bind]
  rw [h.maxSlots, h.chain_eq hk, Option.bind_some, hf, ← ht]

/-! ### Updates -/

theorem HashHolds.set_present (h : HashHolds H m) (hk : SlotInRange k) (hm : m k = some e) :
    kvsHashSetWithTimestamp env H k v t = some (H, 1) := by
  obtain ⟨-, n, -, -, -, -, -, -, hf⟩ := h.find_present hk hm
  simp only [kvsHashSetWithTimestamp, Option.bind_eq_bind]
  rw [h.maxSlots, h.chain_eq hk, Option.bind_some, hf]

theorem createHashNode_of_allocates (henv : env.Allocates) : createHashNode env k v t = some ⟨k, .str v, t⟩ := by
  simp [createHashNode, henv 0, henv 1, henv 2]

theorem createHashNode_eq {n : HashNode} (h : createHashNode env k v t = some n) : n = ⟨k, .str v, t⟩ := by
  unfold createHashNode at h
  split at h
  · cases h
  split at h
  · cases h
  split at h
  · cases h
  · exact (Option.some.inj h).symm

theorem HashHolds.set_absent (h : HashHolds H m) (hk : SlotInRange k) (henv : env.Allocates) (hm : m k = none) :
    ∃ H', kvsHashSetWithTimestamp env H k v t = some (H', 0) ∧ HashHolds H' (m.insert k ⟨v, t⟩) := by
  have hlists : ∀ l₁ l₂, Lists (l₁ ++ (H.table (hash k maxTableSize).toNat).map HashNode.entry ++ l₂)
      (m.mapVal Entry.stored) → Lists (l₁ ++ (⟨k, .str v, t⟩ :: H.table (hash k maxTableSize).toNat).map
        HashNode.entry ++ l₂) ((m.insert k ⟨v, t⟩).mapVal Entry.stored) := by
    intro l₁ l₂ hl
    rw [Map.mapVal_insert, List.map_cons, List.append_assoc, List.cons_append]
    rw [List.append_assoc] at hl
    exact hl.insert (by simp [hm])
  refine ⟨_, ?_, h.setChain (d := 1) hk ?_ rfl hlists⟩
  · simp only [kvsHashSetWithTimestamp, Option.bind_eq_bind]
    rw [h.maxSlots, h.chain_eq hk, Option.bind_some, h.find_absent hk hm]
    simp only [createHashNode_of_allocates henv]
  · intro n hn
    rcases List.mem_cons.mp hn with rfl | hn
    · exact Or.inl rfl
    · exact Or.inr hn

theorem HashHolds.set_keeps {H' : Hash} {n : Int} (h : HashHolds H m) (hk : SlotInRange k)
    (hs : kvsHashSetWithTimestamp env H k v t = some (H', n)) : ∃ m', HashHolds H' m' := by
  cases hm : m k with
  | some e =>
    rw [h.set_present hk hm] at hs
    cases hs
    exact ⟨m, h⟩
  | none =>
    cases hnode : createHashNode env k v t with
    | none =>
      simp only [kvsHashSetWithTimestamp, Option.bind_eq_bind] at hs
      rw [h.maxSlots, h.chain_eq hk, Option.bind_some, h.find_absent hk hm] at hs
      simp only [hnode, Option.some.injEq, Prod.mk.injEq] at hs
      exact ⟨m, hs.1 ▸ h⟩
    | some node =>
      obtain ⟨H₁, hH₁, h'⟩ := h.set_absent (v := v) (t := t) hk (Env.calm_allocates 0) hm
      have hcalm : kvsHashSetWithTimestamp env H k v t = kvsHashSetWithTimestamp (.calm 0) H k v t := by
        have hsame : createHashNode (.calm 0) k v t = some node := by
          rw [createHashNode_of_allocates (Env.calm_allocates 0), createHashNode_eq hnode]
        simp only [kvsHashSetWithTimestamp, hnode, hsame]
      rw [hcalm, hH₁] at hs
      cases hs
      exact ⟨_, h'⟩

/-- `kvs_hash_modify_with_timestamp` on a chain whose first node for the key lies behind `c₁`. -/
theorem Hash.modify_chain {c₁ c₂ : List HashNode} {n : HashNode} (hn : ∀ n' ∈ c₁, n'.key ≠ k) (hk : n.key = k)
    (hc : H.chain (hash k H.maxSlots) = some (c₁ ++ n :: c₂)) :
    kvsHashModifyWithTimestamp env H k v t = n.value.free.map fun _ =>
      if env.alloc 0 = false then (H.setChain (hash k H.maxSlots) (c₁ ++ { n with value := .freed } :: c₂), -3)
      else (H.setChain (hash k H.maxSlots) (c₁ ++ { n with value := .str v, timestamp := t } :: c₂), 0) := by
  simp only [kvsHashModifyWithTimestamp, Option.bind_eq_bind]
  rw [hc, Option.bind_some, findHashNode_append hn hk]
  simp only [writeHashNode_append hn hk]
  cases n.value.free with
  | none => rfl
  | some u => exact (apply_ite some _ _ _).symm

theorem Hash.modify_none {chain : List HashNode} (hc : H.chain (hash k H.maxSlots) = some chain)
    (hn : ∀ n ∈ chain, n.key ≠ k) : kvsHashModifyWithTimestamp env H k v t = some (H, -2) := by
  simp only [kvsHashModifyWithTimestamp, Option.bind_eq_bind]
  rw [hc, Option.bind_some, findHashNode_none hn]

theorem HashHolds.modify_present (h : HashHolds H m) (hk : SlotInRange k) (henv : env.Allocates)
    (hm : m k = some e) :
    ∃ H', kvsHashModifyWithTimestamp env H k v t = some (H', 0) ∧ HashHolds H' (m.insert k ⟨v, t⟩) := by
  obtain ⟨c₁, n, c₂, hc, hn, hnk, hv, -, -⟩ := h.find_present hk hm
  have hchain : H.chain (hash k H.maxSlots) = some (c₁ ++ n :: c₂) := by rw [h.maxSlots, h.chain_eq hk, hc]
  refine ⟨_, ?_, h.setChain (d := 0) (c := c₁ ++ { n with value := .str v, timestamp := t } :: c₂) hk ?_
    (by simp [hc]) ?_⟩
  · rw [Hash.modify_chain hn hnk hchain, hv, h.maxSlots]
    simp only [CharPtr.free, henv 0, Option.map_some, Bool.true_eq_false, if_false, add_zero]
    rfl
  · intro n' hn'
    rw [hc]
    simp only [List.mem_append, List.mem_cons] at hn' ⊢
    rcases hn' with hn' | rfl | hn'
    · exact Or.inr (Or.inl hn')
    · exact Or.inl hnk
    · exact Or.inr (Or.inr (Or.inr hn'))
  · intro l₁ l₂ hl
    subst hnk
    rw [hc, List.map_append, List.map_cons, ← List.append_assoc, List.append_assoc, List.cons_append] at hl
    rw [Map.mapVal_insert, List.map_append, List.map_cons, ← List.append_assoc, List.append_assoc, List.cons_append]
    exact hl.update

theorem HashHolds.modify_absent (h : HashHolds H m) (hk : SlotInRange k) (hm : m k = none) :
    kvsHashModifyWithTimestamp env H k v t = some (H, -2) := by
  simp only [kvsHashModifyWithTimestamp, Option.bind_eq_bind]
  rw [h.maxSlots, h.chain_eq hk, Option.bind_some, h.find_absent hk hm]

/-! ### Deletion -/

/-- `kvs_hash_delete` on a chain whose first node for the key lies behind `c₁`. -/
theorem Hash.delete_chain {c₁ c₂ : List HashNode} {n : HashNode} (hn : ∀ n' ∈ c₁, n'.key ≠ k) (hk : n.key = k)
    (hv : n.value.free = some ()) (hc : H.chain (hash k H.maxSlots) = some (c₁ ++ n :: c₂)) :
    kvsHashDelete H k = some ({ H.setChain (hash k H.maxSlots) (c₁ ++ c₂) with count := H.count + -1 }, 0) := by
  simp only [kvsHashDelete, Option.bind_eq_bind]
  rw [hc, Option.bind_some]
  cases c₁ with
  | nil => simp [hk, hv, Int.sub_eq_add_neg]
  | cons n₀ c₁ =>
    have hn₀ : n₀.key ≠ k := hn n₀ List.mem_cons_self
    have hunlink : unlinkHashNode k (c₁ ++ n :: c₂) = some (n, c₁ ++ c₂) :=
      unlinkHashNode_append (fun n' hn' => hn n' (List.mem_cons_of_mem n₀ hn')) hk
    simp [hn₀, hunlink, hv, Int.sub_eq_add_neg]

/-- The result for a key without a node depends on the bucket. -/
theorem Hash.delete_absent {chain : List HashNode} (hc : H.chain (hash k H.maxSlots) = some chain)
    (hn : ∀ n ∈ chain, n.key ≠ k) : kvsHashDelete H k = some (H, if chain = [] then -2 else 0) := by
  simp only [kvsHashDelete, Option.bind_eq_bind]
  rw [hc, Option.bind_some]
  cases chain with
  | nil => rfl
  | cons n chain =>
    have hne : n.key ≠ k := hn n List.mem_cons_self
    have hunlink := unlinkHashNode_none fun n' hn' => hn n' (List.mem_cons_of_mem n hn')
    simp [hne, hunlink]

/-- A value that was freed is freed again. -/
theorem Hash.delete_freed {c₁ c₂ : List HashNode} {n : HashNode} (hn : ∀ n' ∈ c₁, n'.key ≠ k) (hk : n.key = k)
    (hv : n.value = .freed) (hc : H.chain (hash k H.maxSlots) = some (c₁ ++ n :: c₂)) : kvsHashDelete H k = none := by
  simp only [kvsHashDelete, Option.bind_eq_bind]
  rw [hc, Option.bind_some]
  cases c₁ with
  | nil => simp [hk, hv, CharPtr.free]
  | cons n₀ c₁ =>
    have hn₀ : n₀.key ≠ k := hn n₀ List.mem_cons_self
    have hunlink : unlinkHashNode k (c₁ ++ n :: c₂) = some (n, c₁ ++ c₂) :=
      unlinkHashNode_append (fun n' hn' => hn n' (List.mem_cons_of_mem n₀ hn')) hk
    simp [hn₀, hunlink, hv, CharPtr.free]

theorem Hash.get_chain_eq {c₁ c₂ : List HashNode} {n : HashNode} (hn : ∀ n' ∈ c₁, n'.key ≠ k) (hk : n.key = k)
    (hc : H.chain (hash k H.maxSlots) = some (c₁ ++ n :: c₂)) : kvsHashGet H k = some n.value := by
  simp only [kvsHashGet, Option.bind_eq_bind]
  rw [hc, Option.bind_some, findHashNode_append hn hk]

theorem HashHolds.delete_present (h : HashHolds H m) (hk : SlotInRange k) (hm : m k = some e) :
    ∃ H', kvsHashDelete H k = some (H', 0) ∧ HashHolds H' (m.erase k) := by
  obtain ⟨c₁, n, c₂, hc, hn, hnk, hv, -, -⟩ := h.find_present hk hm
  have hchain : H.chain (hash k H.maxSlots) = some (c₁ ++ n :: c₂) := by rw [h.maxSlots, h.chain_eq hk, hc]
  refine ⟨_, Hash.delete_chain hn hnk (by rw [hv]; rfl) hchain, ?_⟩
  rw [h.maxSlots]
  refine h.setChain hk ?_ ?_ ?_
  · intro n' hn'
    rw [hc]
    simp only [List.mem_append, List.mem_cons] at hn' ⊢
    tauto
  · simp only [hc, List.length_append, List.length_cons]
    omega
  · intro l₁ l₂ hl
    subst hnk
    rw [hc, List.map_append, List.map_cons, ← List.append_assoc, List.append_assoc, List.cons_append] at hl
    rw [Map.mapVal_erase, List.map_append, ← List.append_assoc, List.append_assoc]
    exact hl.erase

/-- A missing key leaves the store as it is; only an empty bucket makes the call report it. -/
theorem HashHolds.delete_absent (h : HashHolds H m) (hk : SlotInRange k) (hm : m k = none) :
    kvsHashDelete H k = some (H, if H.table (hash k maxTableSize).toNat = [] then -2 else 0) := by
  have hn := (h.absent_iff hk).mp hm
  simp only [kvsHashDelete, Option.bind_eq_bind]
  rw [h.maxSlots, h.chain_eq hk, Option.bind_some]
  cases hc : H.table (hash k maxTableSize).toNat with
  | nil => simp
  | cons n chain =>
    rw [hc] at hn
    have hnk : n.key ≠ k := hn n List.mem_cons_self
    have hunlink := unlinkHashNode_none fun n' hn' => hn n' (List.mem_cons_of_mem n hn')
    simp [hnk, hunlink]

end Calls

/-! ### The engine -/

theorem HashHolds.slotInRange {H : Hash} {m : Map CString Entry} (h : HashHolds H m) :
    ∀ e ∈ H.entries, SlotInRange e.1 := by
  intro e he
  obtain ⟨i, hi, he⟩ := List.mem_flatMap.mp he
  obtain ⟨n, hn, rfl⟩ := List.mem_map.mp he
  have hslot : hash n.key maxTableSize = i := h.placed i n hn
  have hlt := List.mem_range.mp hi
  refine ⟨?_, ?_⟩
  · exact hslot ▸ Int.natCast_nonneg i
  · exact hslot ▸ Int.ofNat_lt.mpr hlt

theorem hashLaws : hashEngine.Laws hashAnswers HashHolds SlotInRange AnyString where
  set_eq _ _ _ _ := rfl
  modify_eq _ _ _ _ := rfl
  set_full _ _ _ h := by cases h
  set_present h hk _ _ hm := h.set_present hk hm
  set_absent h hk _ henv _ hm := h.set_absent hk henv hm
  modify_present h hk _ henv hm := h.modify_present hk henv hm
  modify_absent h hk _ hm := h.modify_absent hk hm
  get_present h hk hm := h.get_present hk hm
  get_absent h hk hm := h.get_absent hk hm
  exist_present h hk hm := by simp [hashEngine, kvsHashExist, h.get_present hk hm]
  exist_absent h hk hm := by simp [hashEngine, kvsHashExist, h.get_absent hk hm, hashAnswers]
  count h := by
    change some _ = _
    rw [h.count, ← Map.size_mapVal Entry.stored, h.lists.size]
  getTimestamp h hk hm := h.getTimestamp hk hm

theorem hashDeleteKeeps : hashEngine.DeleteKeeps HashHolds SlotInRange := by
  intro H m k h hk
  cases hm : m k with
  | none => exact ⟨H, _, m, h.delete_absent hk hm, h⟩
  | some e =>
    obtain ⟨H', hs, h'⟩ := h.delete_present hk hm
    exact ⟨H', 0, _, hs, h'⟩

theorem hashSetKeeps : hashEngine.SetKeeps HashHolds SlotInRange AnyString := fun h hk _ hs => h.set_keeps hk hs

end KvStore
