import KvStore.Theorems.HashEngine

/-! # Runs of the hash engine

Every run of calls from `kvs_hash_create` keeps each entry once in the chain of its slot, counts the entries, and
answers what a map from keys to entries answers. What `kvs_hash_delete` returns for a missing key is left open. -/

namespace KvStore
open FiniteMap

/-- Each key is in the chain of its slot and nowhere else, and the counter counts the nodes. -/
structure HashShape (H : Hash) : Prop where
  placed : ∀ i, ∀ n ∈ H.table i, i < maxTableSize ∧ hash n.key maxTableSize = i
  nodup : (H.entries.map Prod.fst).Nodup
  count : kvsHashCount H = some (H.entries.length : Int)

/-- The remainder of `_hash` is smaller than the table. -/
theorem hash_lt (k : CString) : hash k maxTableSize < maxTableSize := by
  have hsize : (0 : Int) < maxTableSize := by decide
  exact Int.tmod_lt_of_pos _ hsize

section Holds
variable {H : Hash} {m : Map CString Entry} {k : CString}

theorem HashHolds.shape (h : HashHolds H m) : HashShape H where
  placed i n hn := by
    have hslot := h.placed i n hn
    have hlt := hash_lt n.key
    rw [hslot] at hlt
    exact ⟨Int.ofNat_lt.mp hlt, hslot⟩
  nodup := h.lists.nodup
  count := congrArg some h.count

theorem HashHolds.getTimestamp_absent (h : HashHolds H m) (hk : SlotInRange k) (hm : m k = none) :
    kvsHashGetTimestamp H k = some 0 := by
  simp only [kvsHashGetTimestamp, Option.bind_eq_bind]
  rw [h.maxSlots, h.chain_eq hk, Option.bind_some, h.find_absent hk hm]

end Holds

theorem hashRemoves : hashEngine.Removes HashHolds SlotInRange := by
  intro H m k h hk
  cases hm : m k with
  | none => exact ⟨H, _, h.delete_absent hk hm, fun hne => absurd rfl hne, (Map.erase_of_none hm).symm ▸ h⟩
  | some e =>
    obtain ⟨H', hs, h'⟩ := h.delete_present hk hm
    exact ⟨H', 0, hs, fun _ => rfl, h'⟩

/-- After any calls each key is once in the chain of its slot, every call was answered as the map answers it, and at
    the end the reads agree with the map. -/
theorem hash_refines_map {calls : List Call} (h : ∀ c ∈ calls, c.Ok SlotInRange AnyString) :
    ∃ H outs m answers, Run.execs (MapSpec.looseStep hashAnswers .entries) Map.empty calls = (m, answers) ∧
      Run.runs hashEngine.exec kvsHashCreate calls = some (H, outs) ∧ List.Forall₂ (fun P r => P r) answers outs ∧
      HashShape H ∧ Lists H.entries (m.mapVal Entry.stored) ∧
      (∀ k e, SlotInRange k → m k = some e → kvsHashGet H k = some (.str e.value) ∧ kvsHashExist H k = some 0 ∧
        kvsHashGetTimestamp H k = some e.timestamp) ∧
      ∀ k, SlotInRange k → m k = none → kvsHashGet H k = some .null ∧ kvsHashExist H k = some (-1) ∧
        kvsHashGetTimestamp H k = some 0 := by
  obtain ⟨H, outs, hrun, hanswers, hm⟩ := (hashLaws.refines hashRemoves).runs hashCreate_holds h
  refine ⟨H, outs, _, _, rfl, hrun, hanswers, hm.shape, hm.lists, ?_, ?_⟩
  · intro k e hk he
    exact ⟨hm.get_present hk he, hashLaws.exist_present hm hk he, hm.getTimestamp hk he⟩
  · intro k hk hnone
    exact ⟨hm.get_absent hk hnone, hashLaws.exist_absent hm hk hnone, hm.getTimestamp_absent hk hnone⟩

/-- A run of a few calls on three keys of one slot: it deletes in the middle of the chain, at its head, and a key
    that is not there. -/
def collidingCalls : List Call :=
  [.set (.calm 1) (.ofBytes [97, 100]) (.ofBytes [1]), .set (.calm 2) (.ofBytes [98, 99]) (.ofBytes [2]),
    .setWithTimestamp (.calm 3) (.ofBytes [99, 98]) (.ofBytes [3]) 7, .set (.calm 4) (.ofBytes [98, 99]) (.ofBytes [5]),
    .delete (.ofBytes [98, 99]), .delete (.ofBytes [99, 98]), .delete (.ofBytes [100, 97]),
    .modify (.calm 5) (.ofBytes [97, 100]) (.ofBytes [4]), .exist (.ofBytes [97, 100]), .get (.ofBytes [97, 100]), .count]

theorem collidingCalls_ok : ∀ c ∈ collidingCalls, c.Ok SlotInRange AnyString := by
  have hslots : ∀ k ∈ [[97, 100], [98, 99], [99, 98], [100, 97]], SlotInRange (.ofBytes k) := by decide
  simp only [List.mem_cons, List.not_mem_nil, or_false, forall_eq_or_imp, forall_eq] at hslots
  obtain ⟨h₁, h₂, h₃, h₄⟩ := hslots
  simp [collidingCalls, Call.Ok, AnyString, Env.calm_allocates, h₁, h₂, h₃, h₄]

theorem hash_refines_map_collidingCalls :
    ∃ H outs m answers, Run.execs (MapSpec.looseStep hashAnswers .entries) Map.empty collidingCalls = (m, answers) ∧
      Run.runs hashEngine.exec kvsHashCreate collidingCalls = some (H, outs) ∧
      List.Forall₂ (fun P r => P r) answers outs ∧
      HashShape H ∧ Lists H.entries (m.mapVal Entry.stored) ∧
      (∀ k e, SlotInRange k → m k = some e → kvsHashGet H k = some (.str e.value) ∧ kvsHashExist H k = some 0 ∧
        kvsHashGetTimestamp H k = some e.timestamp) ∧
      ∀ k, SlotInRange k → m k = none → kvsHashGet H k = some .null ∧ kvsHashExist H k = some (-1) ∧
        kvsHashGetTimestamp H k = some 0 :=
  hash_refines_map collidingCalls_ok

end KvStore
