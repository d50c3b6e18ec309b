import KvStore.Lib.Merge
import KvStore.SyncClient
import KvStore.Theorems.ArrayEngine
import KvStore.Theorems.HashEngine
import KvStore.Theorems.RbtreeEngine
import KvStore.Theorems.SkiptableEngine

/-! # Merging remote records

The merge of a list of records into an engine that obeys the laws leaves for each key the last writer's
entry, and the same records merged again change nothing. -/

namespace KvStore
open FiniteMap

namespace SyncData

/-- The key and the entry that a record offers. -/
def record (item : SyncData) : CString × Entry := (.ofBytes item.key, ⟨.ofBytes item.value, item.timestamp⟩)

end SyncData

/-- The order of entries in time. -/
def Entry.stamp (e : Entry) : Nat := e.timestamp.toNat

section Merge
variable {σ : Type} {E : Engine σ} {A : Answers} {Holds : σ → Map CString Entry → Prop} {key val : CString → Prop}

/-- Each record that brings a new key finds an engine that still takes entries. -/
def Room (A : Answers) (m : Map CString Entry) (data : List SyncData) : Prop :=
  ∀ pre item post, data = pre ++ item :: post → m.merge Entry.stamp (pre.map SyncData.record) item.record.1 = none →
    A.full (m.merge Entry.stamp (pre.map SyncData.record)).size = none

theorem Room.tail {m : Map CString Entry} {item : SyncData} {data : List SyncData} (h : Room A m (item :: data)) :
    Room A (m.offer Entry.stamp item.record) data := by
  rintro pre item' post rfl hnone
  exact h (item :: pre) item' post rfl hnone

theorem Room.head {m : Map CString Entry} {item : SyncData} {data : List SyncData} (h : Room A m (item :: data))
    (hm : m item.record.1 = none) : A.full m.size = none := h [] item data rfl hm

variable (L : E.Laws A Holds key val)
include L

/-- What one record does to a store. -/
theorem Engine.Laws.syncOne {env : Nat → Env} {s : σ} {m : Map CString Entry} {item : SyncData}
    (data : List SyncData) (h : Holds s m) (hk : key item.record.1) (hv : val item.record.2.value) (henv : (env 0).Allocates)
    (hroom : m item.record.1 = none → A.full m.size = none) :
    ∃ s', syncDataToLocal E env s (item :: data) = syncDataToLocal E (fun n => env (n + 1)) s' data ∧
      Holds s' (m.offer Entry.stamp item.record) := by
  cases hm : m item.record.1 with
  | none =>
    obtain ⟨s', hs, h'⟩ := L.set_absent (t := item.timestamp) h hk hv henv (hroom hm) hm
    have hget := L.get_absent h hk hm
    have hoffer : m.offer Entry.stamp item.record = m.insert item.record.1 item.record.2 := Map.offer_absent hm
    refine ⟨s', ?_, hoffer ▸ h'⟩
    simp only [SyncData.record] at hget hs
    simp [syncDataToLocal, hget, hs]
  | some e =>
    have hget := L.get_present h hk hm
    have hts := L.getTimestamp h hk hm
    simp only [SyncData.record] at hget hts
    by_cases hnew : e.timestamp < item.timestamp
    · obtain ⟨s', hs, h'⟩ := L.modify_present (t := item.timestamp) h hk hv henv hm
      have hoffer : m.offer Entry.stamp item.record = m.insert item.record.1 item.record.2 := Map.offer_newer hm hnew
      refine ⟨s', ?_, hoffer ▸ h'⟩
      simp only [SyncData.record] at hs
      simp [syncDataToLocal, hget, hts, hnew, hs]
    · have hoffer : m.offer Entry.stamp item.record = m := Map.offer_older hm (UInt64.not_lt.mp hnew)
      refine ⟨s, ?_, by rwa [hoffer]⟩
      simp [syncDataToLocal, hget, hts, hnew]

theorem Engine.Laws.sync {env : Nat → Env} {s : σ} {m : Map CString Entry} {data : List SyncData} (h : Holds s m)
    (hdata : ∀ item ∈ data, key item.record.1 ∧ val item.record.2.value) (henv : ∀ n, (env n).Allocates)
    (hroom : Room A m data) :
    ∃ s', syncDataToLocal E env s data = some (s', 0) ∧ Holds s' (m.merge Entry.stamp (data.map SyncData.record)) := by
  induction data generalizing env s m with
  | nil => exact ⟨s, rfl, h⟩
  | cons item data ih =>
    obtain ⟨hk, hv⟩ := hdata item List.mem_cons_self
    obtain ⟨s₁, hs₁, h₁⟩ := L.syncOne data h hk hv (henv 0) hroom.head
    obtain ⟨s', hs', h'⟩ := ih h₁ (fun i hi => hdata i (List.mem_cons_of_mem item hi)) (fun n => henv (n + 1)) hroom.tail
    exact ⟨s', hs₁.trans hs', h'⟩

/-- Records that are no newer than what the store holds do not change it. -/
theorem Engine.Laws.sync_settled {env : Nat → Env} {s : σ} {m : Map CString Entry} {data : List SyncData}
    (h : Holds s m) (hdata : ∀ item ∈ data, key item.record.1)
    (hset : Map.Settled Entry.stamp m (data.map SyncData.record)) : syncDataToLocal E env s data = some (s, 0) := by
  induction data generalizing env with
  | nil => rfl
  | cons item data ih =>
    obtain ⟨e, hm, hle⟩ := hset item.record List.mem_cons_self
    have hk := hdata item List.mem_cons_self
    have hget := L.get_present h hk hm
    have hts := L.getTimestamp h hk hm
    have hold : ¬e.timestamp < item.timestamp := UInt64.not_lt.mpr hle
    have hrest : syncDataToLocal E (fun n => env (n + 1)) s data = some (s, 0) := ih
      (fun i hi => hdata i (List.mem_cons_of_mem item hi))
      fun r hr => hset r (List.mem_cons_of_mem _ hr)
    simp only [SyncData.record] at hget hts
    simp [syncDataToLocal, hget, hts, hold, hrest]

end Merge

/-! ### The four engines -/

section Reachable
variable {σ : Type}

/-- `get` and `get_timestamp` show the map `m` on the keys that satisfy `key`. -/
def Engine.Observes (E : Engine σ) (key : CString → Prop) (s : σ) (m : Map CString Entry) : Prop :=
  ∀ k, key k → (m k = none → E.get s k = some .null) ∧
    ∀ e, m k = some e → E.get s k = some (.str e.value) ∧ E.getTimestamp s k = some e.timestamp

/-- From every store that calls lead to, the merge of records for which there is room returns 0, leaves in each key
    the entry of the last writer and in the other keys what they held, and changes nothing when it is repeated. -/
def MergesLastWriter (E : Engine σ) (init : σ) (sync : (Nat → Env) → σ → List SyncData → Option (σ × Int))
    (key val : CString → Prop) (room : σ → Map CString Entry → List SyncData → Prop) : Prop :=
  ∀ (calls : List Call) (s : σ) (outs : List Ret), (∀ c ∈ calls, c.Ok key val) →
    Run.runs E.exec init calls = some (s, outs) → ∃ m, E.Observes key s m ∧
      ∀ (env : Nat → Env) (data : List SyncData), (∀ n, (env n).Allocates) →
        (∀ item ∈ data, key item.record.1 ∧ val item.record.2.value) → room s m data →
        ∃ s' m', sync env s data = some (s', 0) ∧ E.Observes key s' m' ∧
          (∀ k, m' k = ((m k).toList ++ offers k (data.map SyncData.record)).argmax Entry.stamp) ∧
          (∀ k, k ∉ data.map (fun item => item.record.1) → m' k = m k) ∧
          ∀ env' : Nat → Env, sync env' s' data = some (s', 0)

variable {E : Engine σ} {A : Answers} {Holds : σ → Map CString Entry → Prop} {key val : CString → Prop}

theorem Engine.Laws.observes (L : E.Laws A Holds key val) {s : σ} {m : Map CString Entry} (h : Holds s m) :
    E.Observes key s m := fun _ hk =>
  ⟨fun hm => L.get_absent h hk hm, fun _ hm => ⟨L.get_present h hk hm, L.getTimestamp h hk hm⟩⟩

theorem Engine.Laws.mergesLastWriter (L : E.Laws A Holds key val) (D : E.DeleteKeeps Holds key) {init : σ}
    (hinit : Holds init Map.empty) {room : σ → Map CString Entry → List SyncData → Prop}
    (hroom : ∀ {s m data}, Holds s m → room s m data → Room A m data) :
    MergesLastWriter E init (syncDataToLocal E) key val room := by
  intro calls s outs hok hrun
  obtain ⟨m, h⟩ := L.reachable D hinit hok hrun
  refine ⟨m, L.observes h, fun env data henv hdata hr => ?_⟩
  obtain ⟨s', hs', h'⟩ := L.sync h hdata henv (hroom h hr)
  refine ⟨s', _, hs', L.observes h', fun k => Map.merge_apply, fun k hk => ?_, fun env' => ?_⟩
  · exact Map.merge_of_not_mem (by rwa [List.map_map])
  · exact L.sync_settled h' (fun item hi => (hdata item hi).1) Map.merge_settled

end Reachable

/-- The keys that the records bring to a map. -/
def newKeys (m : Map CString Entry) (data : List SyncData) : List CString :=
  ((data.map fun item => item.record.1).filter fun k => (m k).isNone).dedup

/-- The array has a free slot for every new key. -/
def ArrayRoom (T : KvArray) (m : Map CString Entry) (data : List SyncData) : Prop :=
  T.total + (newKeys m data).length ≤ kvsArraySize

theorem mem_newKeys {m : Map CString Entry} {data : List SyncData} {k : CString} :
    k ∈ newKeys m data ↔ k ∈ data.map (fun item => item.record.1) ∧ m k = none := by
  simp [newKeys]

theorem newKeys_nodup {m : Map CString Entry} {data : List SyncData} : (newKeys m data).Nodup := List.nodup_dedup _

theorem newKeys_length_le {m : Map CString Entry} {data : List SyncData} : (newKeys m data).length ≤ data.length :=
  ((List.dedup_sublist _).length_le.trans (List.length_filter_le ..)).trans_eq (List.length_map _)

theorem newKeys_congr {m m' : Map CString Entry} (h : ∀ k, m k = none ↔ m' k = none) (data : List SyncData) :
    newKeys m data = newKeys m' data := by
  have hnone : ∀ k, (m k).isNone = (m' k).isNone := by
    intro k
    rw [Bool.eq_iff_iff, Option.isNone_iff_eq_none, Option.isNone_iff_eq_none]
    exact h k
  simp [newKeys, hnone]

/-- A merge adds at most the new keys. -/
theorem size_merge_le {m : Map CString Entry} (data : List SyncData) (hm : {k | m k ≠ none}.Finite) :
    (m.merge Entry.stamp (data.map SyncData.record)).size ≤ m.size + (newKeys m data).length := by
  have hfin : ({k | m k ≠ none} ∪ (newKeys m data).toFinset : Set CString).Finite := hm.union (Finset.finite_toSet _)
  have hsub : {k | m.merge Entry.stamp (data.map SyncData.record) k ≠ none} ⊆
      {k | m k ≠ none} ∪ (newKeys m data).toFinset := by
    intro k hk
    by_cases hm : m k = none
    · right
      have hmem : k ∈ data.map fun item => item.record.1 := by
        by_contra hnot
        exact hk ((Map.merge_of_not_mem (by rwa [List.map_map])).trans hm)
      simpa using mem_newKeys.mpr ⟨hmem, hm⟩
    · exact Or.inl hm
  calc (m.merge Entry.stamp (data.map SyncData.record)).size
      ≤ ({k | m k ≠ none} ∪ (newKeys m data).toFinset : Set CString).ncard := Set.ncard_le_ncard hsub hfin
    _ ≤ {k | m k ≠ none}.ncard + ((newKeys m data).toFinset : Set CString).ncard := Set.ncard_union_le _ _
    _ = m.size + (newKeys m data).length := by
        rw [Set.ncard_coe_finset, List.toFinset_card_of_nodup newKeys_nodup]
        rfl

/-- Before a record that brings a new key, a merge has not added all of the new keys. -/
theorem size_merge_lt {m : Map CString Entry} {pre post : List SyncData} {item : SyncData}
    (hm : {k | m k ≠ none}.Finite) (hnone : m.merge Entry.stamp (pre.map SyncData.record) item.record.1 = none) :
    (m.merge Entry.stamp (pre.map SyncData.record)).size < m.size + (newKeys m (pre ++ item :: post)).length := by
  obtain ⟨hitem, hpre⟩ := Map.merge_eq_none.mp hnone
  rw [List.map_map] at hpre
  have hout : item.record.1 ∉ newKeys m pre := fun hmem => hpre (mem_newKeys.mp hmem).1
  have hsub : item.record.1 :: newKeys m pre ⊆ newKeys m (pre ++ item :: post) := by
    intro k hk
    rcases List.mem_cons.mp hk with rfl | hk
    · exact mem_newKeys.mpr ⟨by simp, hitem⟩
    · obtain ⟨hk, hmk⟩ := mem_newKeys.mp hk
      refine mem_newKeys.mpr ⟨?_, hmk⟩
      rw [List.map_append]
      exact List.mem_append_left _ hk
  have hlt := (List.subperm_of_subset (List.nodup_cons.mpr ⟨hout, newKeys_nodup⟩) hsub).length_le
  rw [List.length_cons] at hlt
  exact (size_merge_le pre hm).trans_lt (Nat.add_lt_add_left hlt _)

theorem ArrayHolds.room {T : KvArray} {m : Map CString Entry} {data : List SyncData} (h : ArrayHolds T m)
    (hroom : ArrayRoom T m data) : Room arrayAnswers m data := by
  rintro pre item post rfl hnone
  rw [ArrayRoom, ← h.size] at hroom
  obtain ⟨es, -, hl⟩ := h
  have hfin : {k | m k ≠ none}.Finite := by simpa using hl.finite
  exact if_neg (not_le.mpr ((size_merge_lt hfin hnone).trans_le hroom))

/-- In all four engines a merge leaves the entries of the last writers. -/
theorem sync_last_writer_wins :
    MergesLastWriter arrayEngine kvsArrayCreate syncDataToLocalArrayEngine AnyString AnyString ArrayRoom ∧
    MergesLastWriter rbtreeEngine kvsRbtreeCreate syncDataToLocalRbtreeEngine AnyString AnyString (fun _ _ _ => True) ∧
    MergesLastWriter hashEngine kvsHashCreate syncDataToLocalHashEngine SlotInRange AnyString (fun _ _ _ => True) ∧
    MergesLastWriter skiptableEngine kvsSkiptableCreate syncDataToLocalSkiptableEngine Short Short
      (fun _ _ _ => True) :=
  ⟨arrayLaws.mergesLastWriter arrayDeleteLaws.keeps arrayCreate_holds fun h hroom => h.room hroom,
    rbtreeLaws.mergesLastWriter rbtreeDeleteLaws.keeps rbtreeCreate_holds fun _ _ _ _ _ _ _ => rfl,
    hashLaws.mergesLastWriter hashDeleteKeeps hashCreate_holds fun _ _ _ _ _ _ _ => rfl,
    skipLaws.mergesLastWriter skipDeleteLaws.keeps skipCreate_holds fun _ _ _ _ _ _ _ => rfl⟩

/-- Three records for one key, two of them with the greatest timestamp. -/
def tiedRecords : List SyncData := [⟨[97], [1], 5⟩, ⟨[97], [2], 7⟩, ⟨[97], [3], 7⟩]

theorem sync_last_writer_wins_tiedRecords : ∃ m s' m', arrayEngine.Observes AnyString kvsArrayCreate m ∧
    syncDataToLocalArrayEngine (fun _ => Env.calm 0) kvsArrayCreate tiedRecords = some (s', 0) ∧
    arrayEngine.Observes AnyString s' m' ∧
    ∀ k, m' k = ((m k).toList ++ offers k (tiedRecords.map SyncData.record)).argmax Entry.stamp := by
  obtain ⟨m, hm, hsync⟩ := sync_last_writer_wins.1 [] kvsArrayCreate [] (by simp) rfl
  have hroom : ArrayRoom kvsArrayCreate m tiedRecords :=
    (Nat.add_le_add_left newKeys_length_le _).trans (by decide)
  obtain ⟨s', m', hs', hm', hlast, -⟩ := hsync (fun _ => Env.calm 0) tiedRecords (fun _ => Env.calm_allocates 0)
    (fun _ _ => ⟨trivial, trivial⟩) hroom
  exact ⟨m, s', m', hm, hs', hm', hlast⟩

end KvStore
