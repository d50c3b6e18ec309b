import KvStore.Theorems.ArrayEngine

/-! # Runs of the array engine

Every run of calls from `kvs_array_create` keeps the items in the first slots of the table, without a hole, and answers
what a map from keys to entries answers that takes no more than `KVS_ARRAY_SIZE` of them. -/

namespace KvStore
open FiniteMap

/-- The first `total` slots have keys, no two of them the same, and no other slot has one. -/
structure ArrayShape (T : KvArray) : Prop where
  occupied : ∀ i, (∃ item k, T.table i = some item ∧ item.key = .str k) ↔ i < T.total
  distinct : ∀ i j a b, i < T.total → j < T.total → T.table i = some a → T.table j = some b → a.key = b.key → i = j
  bounded : T.total ≤ 1024 * 1024

/-- No slot behind the first `total` has a key. -/
def KvArray.TailCleared (T : KvArray) : Prop := ∀ i item, T.total ≤ i → T.table i = some item → item.key = .null

section Tail
variable {T T' : KvArray} {k v : CString} {env : Env} {t : UInt64} {n : Int} {i j : Nat} {item : ArrayItem}

theorem setItem_some (h : T.setItem i item = some T') :
    T' = { T with table := Function.update T.table i (some item) } := by
  rw [KvArray.setItem] at h
  split at h
  · exact (Option.some.inj h).symm
  · cases h

/-- Writing below the tail, or writing no key, and counting on at least as far as before. -/
theorem KvArray.TailCleared.update {total : Nat} (h : T.TailCleared) (htotal : T.total ≤ total)
    (hi : i < total ∨ item.key = .null) : KvArray.TailCleared ⟨Function.update T.table i (some item), total⟩ := by
  intro j a hj ha
  by_cases heq : j = i
  · subst heq
    have hitem : Function.update T.table j (some item) j = some a := ha
    rw [Function.update_self, Option.some.injEq] at hitem
    rcases hi with hlt | hnull
    · exact absurd hlt (Nat.not_lt.mpr hj)
    · rw [← hitem, hnull]
  · have hold : Function.update T.table i (some item) j = some a := ha
    rw [Function.update_of_ne heq] at hold
    exact h j a (htotal.trans hj) hold

/-- Clearing the last slot and counting one less. -/
theorem KvArray.TailCleared.pop (h : T.TailCleared) :
    KvArray.TailCleared ⟨Function.update T.table (T.total - 1) (some .cleared), T.total - 1⟩ := by
  intro j a hj ha
  by_cases heq : j = T.total - 1
  · have hitem : Function.update T.table (T.total - 1) (some .cleared) j = some a := ha
    rw [heq, Function.update_self, Option.some.injEq] at hitem
    rw [← hitem]
    rfl
  · have hold : Function.update T.table (T.total - 1) (some .cleared) j = some a := ha
    rw [Function.update_of_ne heq] at hold
    have hj : T.total - 1 ≤ j := hj
    exact h j a (by omega) hold

theorem findLoop_lt {m : Nat} : ∀ {i : Nat}, arrayFindLoop T k m i = some (some j) → j < i + m := by
  induction m with
  | zero =>
    intro i h
    cases h
  | succ m ih =>
    intro i h
    simp only [arrayFindLoop, Option.bind_eq_bind, Option.bind_eq_some_iff] at h
    obtain ⟨item, -, here, -, h⟩ := h
    split at h
    · cases h
      exact Nat.lt_add_of_pos_right (Nat.succ_pos m)
    · have hlt := ih h
      omega

theorem findIndex_lt (h : kvsArrayFindIndex T k = some (some j)) : j < T.total := by
  have hlt := findLoop_lt h
  rwa [Nat.zero_add] at hlt

theorem holeLoop_lt {m : Nat} : ∀ {i : Nat}, arrayHoleLoop T m i = some (some j) → j < i + m := by
  induction m with
  | zero =>
    intro i h
    cases h
  | succ m ih =>
    intro i h
    simp only [arrayHoleLoop, Option.bind_eq_bind, Option.bind_eq_some_iff] at h
    obtain ⟨item, -, h⟩ := h
    split at h
    · cases h
      exact Nat.lt_add_of_pos_right (Nat.succ_pos m)
    · have hlt := ih h
      omega

theorem KvArray.TailCleared.set (h : T.TailCleared) (hs : kvsArraySetWithTimestamp env T k v t = some (T', n)) :
    T'.TailCleared := by
  rw [kvsArraySetWithTimestamp] at hs
  split at hs
  · cases hs
    exact h
  simp only [Option.bind_eq_bind, Option.bind_eq_some_iff] at hs
  obtain ⟨str, -, hs⟩ := hs
  split at hs
  · cases hs
    exact h
  split at hs
  · cases hs
    exact h
  split at hs
  · cases hs
    exact h
  simp only [Option.bind_eq_some_iff] at hs
  obtain ⟨hole, hhole, hs⟩ := hs
  split at hs
  · next i =>
    have hi := holeLoop_lt hhole
    rw [Nat.zero_add] at hi
    obtain ⟨T₁, hset, hs⟩ := Option.bind_eq_some_iff.mp hs
    cases hs
    rw [setItem_some hset]
    exact h.update (Nat.le_succ _) (Or.inl (Nat.lt_succ_of_lt hi))
  · split at hs
    · obtain ⟨T₁, hset, hs⟩ := Option.bind_eq_some_iff.mp hs
      cases hs
      rw [setItem_some hset]
      exact h.update (Nat.le_succ _) (Or.inl (Nat.lt_succ_self _))
    · cases hs
      exact h

theorem KvArray.TailCleared.modify (h : T.TailCleared) (hs : kvsArrayModifyWithTimestamp env T k v t = some (T', n)) :
    T'.TailCleared := by
  rw [kvsArrayModifyWithTimestamp] at hs
  split at hs
  · cases hs
    exact h
  simp only [Option.bind_eq_bind, Option.bind_eq_some_iff] at hs
  obtain ⟨found, hfound, hs⟩ := hs
  split at hs
  · cases hs
    exact h
  · next i =>
    have hi := findIndex_lt hfound
    obtain ⟨item, -, hs⟩ := Option.bind_eq_some_iff.mp hs
    obtain ⟨-, -, hs⟩ := Option.bind_eq_some_iff.mp hs
    split at hs
    · obtain ⟨T₁, hset, hs⟩ := Option.bind_eq_some_iff.mp hs
      cases hs
      rw [setItem_some hset]
      exact h.update le_rfl (Or.inl hi)
    · obtain ⟨T₁, hset, hs⟩ := Option.bind_eq_some_iff.mp hs
      cases hs
      rw [setItem_some hset]
      exact h.update le_rfl (Or.inl hi)

theorem KvArray.TailCleared.delete (h : T.TailCleared) (hs : kvsArrayDelete T k = some (T', n)) : T'.TailCleared := by
  simp only [kvsArrayDelete, Option.bind_eq_bind, Option.bind_eq_some_iff] at hs
  obtain ⟨found, hfound, hs⟩ := hs
  split at hs
  · cases hs
    exact h
  · next i =>
    have hi := findIndex_lt hfound
    obtain ⟨item, -, hs⟩ := Option.bind_eq_some_iff.mp hs
    obtain ⟨-, -, hs⟩ := Option.bind_eq_some_iff.mp hs
    obtain ⟨-, -, hs⟩ := Option.bind_eq_some_iff.mp hs
    obtain ⟨T₁, hset₁, hs⟩ := Option.bind_eq_some_iff.mp hs
    obtain rfl := setItem_some hset₁
    split at hs
    · next hlast =>
      -- the cleared slot is the last one
      cases hs
      have hend : i = T.total - 1 := by
        have hlast : i + 1 = T.total := hlast
        omega
      rw [hend]
      exact h.pop
    · obtain ⟨last, -, hs⟩ := Option.bind_eq_some_iff.mp hs
      obtain ⟨T₂, hset₂, hs⟩ := Option.bind_eq_some_iff.mp hs
      obtain rfl := setItem_some hset₂
      obtain ⟨T₃, hset₃, hs⟩ := Option.bind_eq_some_iff.mp hs
      obtain rfl := setItem_some hset₃
      cases hs
      have h₁ : KvArray.TailCleared ⟨Function.update T.table i (some .cleared), T.total⟩ :=
        h.update le_rfl (Or.inl hi)
      have h₂ : KvArray.TailCleared ⟨Function.update (Function.update T.table i (some .cleared)) i (some last), T.total⟩ :=
        h₁.update (T := ⟨_, T.total⟩) le_rfl (Or.inl hi)
      exact h₂.pop

theorem arrayKeepsTail : arrayEngine.Keeps KvArray.TailCleared where
  set h hs := h.set hs
  modify h hs := h.modify hs
  delete h hs := h.delete hs

end Tail

section Holds
variable {T : KvArray} {m : Map CString Entry} {k : CString}

theorem ArrayHolds.shape (h : ArrayHolds T m) (htail : T.TailCleared) : ArrayShape T := by
  obtain ⟨es, hs, hl⟩ := h
  have hslot : ∀ i, i < T.total → ∃ e, es[i]? = some e ∧ T.table i = some (arrayItem e) := by
    intro i hi
    rw [hs.total] at hi
    exact ⟨es[i], List.getElem?_eq_getElem hi, hs.slot i _ (List.getElem?_eq_getElem hi)⟩
  refine ⟨fun i => ⟨?_, fun hi => ?_⟩, ?_, hs.total ▸ hs.fits⟩
  · rintro ⟨item, k, hitem, hkey⟩
    by_contra hi
    have hnull := htail i item (Nat.le_of_not_lt hi) hitem
    rw [hkey] at hnull
    cases hnull
  · obtain ⟨e, -, hitem⟩ := hslot i hi
    exact ⟨_, e.1, hitem, rfl⟩
  · intro i j a b hi hj ha hb hkey
    obtain ⟨e, he, hitem⟩ := hslot i hi
    obtain ⟨f, hf, hitem'⟩ := hslot j hj
    obtain rfl := Option.some.inj (ha.symm.trans hitem)
    obtain rfl := Option.some.inj (hb.symm.trans hitem')
    have hkeys : (es.map Prod.fst)[i]? = (es.map Prod.fst)[j]? := by
      rw [List.getElem?_map, List.getElem?_map, he, hf, Option.map_some, Option.map_some, CharPtr.str.inj hkey]
    have hlt : i < (es.map Prod.fst).length := by rwa [List.length_map, ← hs.total]
    exact (List.getElem?_inj hlt hl.nodup).mp hkeys

theorem ArrayHolds.getTimestamp_absent (h : ArrayHolds T m) (hm : m k = none) : kvsArrayGetTimestamp T k = some 0 := by
  simp [kvsArrayGetTimestamp, h.find_absent hm]

end Holds

/-- After any calls the items are in the first slots, each key once, every call was answered as the map answers it, and
    at the end the reads agree with the map. -/
theorem array_refines_map {calls : List Call} (h : ∀ c ∈ calls, c.Ok AnyString AnyString) :
    ∃ T m outs, Run.execs (MapSpec.step arrayAnswers View.entries) Map.empty calls = (m, outs) ∧
      Run.runs arrayEngine.exec kvsArrayCreate calls = some (T, outs) ∧ ArrayShape T ∧
      kvsArrayCount T = some (m.size : Int) ∧
      (∀ k e, m k = some e → kvsArrayGet T k = some (.str e.value) ∧ kvsArrayExist T k = some 0 ∧
        kvsArrayGetTimestamp T k = some e.timestamp) ∧
      ∀ k, m k = none → kvsArrayGet T k = some .null ∧ kvsArrayExist T k = some (-1) ∧
        kvsArrayGetTimestamp T k = some 0 := by
  have hrel : Engine.Shows ArrayHolds View.entries kvsArrayCreate Map.empty := ⟨Map.empty, arrayCreate_holds, rfl⟩
  obtain ⟨T, hrun, m, hm, heq⟩ := (arrayLaws.simulates arrayDeleteLaws).runs hrel h
  obtain rfl : m = (Run.execs (MapSpec.step arrayAnswers View.entries) Map.empty calls).1 := by
    rw [← heq]
    exact Map.mapVal_id.symm
  have htail : T.TailCleared :=
    arrayKeepsTail.runs arrayLaws.set_eq arrayLaws.modify_eq (fun _ _ _ hitem => by cases hitem) hrun
  refine ⟨T, _, _, rfl, hrun, hm.shape htail, arrayLaws.count hm, ?_, ?_⟩
  · intro k e he
    exact ⟨hm.get_present he, arrayLaws.exist_present hm trivial he, hm.getTimestamp he⟩
  · intro k hnone
    exact ⟨hm.get_absent hnone, arrayLaws.exist_absent hm trivial hnone, hm.getTimestamp_absent hnone⟩

/-- A run of a few calls that deletes in the middle of the table, at its end, and a key that is not there. -/
def arrayCalls : List Call :=
  [.set (.calm 1) (.ofBytes [98]) (.ofBytes [1]), .set (.calm 2) (.ofBytes [97]) (.ofBytes [2]),
    .setWithTimestamp (.calm 3) (.ofBytes [99]) (.ofBytes [3]) 7, .set (.calm 4) (.ofBytes [97]) (.ofBytes [5]),
    .delete (.ofBytes [98]), .delete (.ofBytes [97]), .delete (.ofBytes [97]),
    .modify (.calm 5) (.ofBytes [99]) (.ofBytes [4]), .exist (.ofBytes [99]), .get (.ofBytes [99]), .count]

theorem arrayCalls_ok : ∀ c ∈ arrayCalls, c.Ok AnyString AnyString := by
  simp [arrayCalls, Call.Ok, AnyString, Env.calm_allocates]

theorem array_refines_map_arrayCalls :
    ∃ T m outs, Run.execs (MapSpec.step arrayAnswers View.entries) Map.empty arrayCalls = (m, outs) ∧
      Run.runs arrayEngine.exec kvsArrayCreate arrayCalls = some (T, outs) ∧ ArrayShape T ∧
      kvsArrayCount T = some (m.size : Int) ∧
      (∀ k e, m k = some e → kvsArrayGet T k = some (.str e.value) ∧ kvsArrayExist T k = some 0 ∧
        kvsArrayGetTimestamp T k = some e.timestamp) ∧
      ∀ k, m k = none → kvsArrayGet T k = some .null ∧ kvsArrayExist T k = some (-1) ∧
        kvsArrayGetTimestamp T k = some 0 :=
  array_refines_map arrayCalls_ok

end KvStore
