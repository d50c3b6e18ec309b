import KvStore.Theorems.Backend
import KvStore.Theorems.SaveLoad

/-! Merging the records of a peer into a store that was saved and loaded, against merging them into the store itself.
    The file has no timestamps; a loaded entry has the reading of the clock that its `set` finds. -/

namespace KvStore
open FiniteMap

/-- For each key of both maps the latest record is newer than both entries or than neither, or has the value that is
    stored. -/
def SameWinners (m m₁ : Map CString Entry) (data : List SyncData) : Prop :=
  ∀ k e e₁ r, m k = some e → m₁ k = some e₁ → (offers k (data.map SyncData.record)).argmax Entry.stamp = some r →
    (e.timestamp < r.timestamp ↔ e₁.timestamp < r.timestamp) ∨ r.value = e.value

/-- Every store that calls lead to and that satisfies `cond` is saved and loaded back with readings of the clock, and
    records for which there is room merge into both stores; the values are the same exactly when `same` holds. -/
def MergesAlike {σ : Type} (E : Engine σ) (init : σ) (save : Disk → σ → Option (List UInt8 × Int))
    (load : (Nat → Env) → σ → List UInt8 → Option (σ × Int)) (key : CString → Prop) (Fits : Nat → Prop)
    (cond : σ → Prop) (same : Map CString Entry → Map CString Entry → List SyncData → Prop) : Prop :=
  ∀ (calls : List Call) (s : σ) (outs : List Ret), (∀ c ∈ calls, c.Strings key AnyString ∧ c.ModifyAllocates) →
    Run.runs E.exec init calls = some (s, outs) → cond s → ∃ m file, E.Observes key s m ∧
      save .good s = some (file, 0) ∧ ∀ loadEnv : Nat → Env, (∀ n, (loadEnv n).Allocates) →
        ∃ s₁ m₁, load loadEnv init file = some (s₁, 0) ∧ E.Observes key s₁ m₁ ∧
          (∀ k e, m₁ k = some e → ∃ n, e.timestamp = (loadEnv n).now) ∧
          ∀ (env env₁ : Nat → Env) (data : List SyncData), (∀ n, (env n).Allocates) → (∀ n, (env₁ n).Allocates) →
            (∀ item ∈ data, key item.record.1) → Fits (m.size + (newKeys m data).length) →
            ∃ s' s₁', syncDataToLocal E env s data = some (s', 0) ∧ syncDataToLocal E env₁ s₁ data = some (s₁', 0) ∧
              ((∀ k, key k → E.get s₁' k = E.get s' k) ↔ same m m₁ data)

section Merge
variable {σ : Type} {E : Engine σ} {A : Answers} {Holds : σ → Map CString Entry → Prop} {key : CString → Prop}
  {Fits : Nat → Prop}

theorem Engine.Laws.mergesAlike (L : E.Laws A Holds key AnyString) (B : Engine.Bounds A Holds key AnyString Fits)
    (D : E.DeleteKeeps Holds key) (S : E.SetKeeps Holds key AnyString) {init : σ} (hinit : Holds init Map.empty)
    {save : Disk → σ → Option (List UInt8 × Int)} (hsave : SavesEntries A Holds key save) :
    MergesAlike E init save (KvStore.load E.setBuffers) key Fits (fun s => E.StringsFit s ∧ E.CountFits s)
      SameWinners := by
  rintro calls s outs hcalls hrun ⟨hfits, hcount⟩
  obtain ⟨m, h⟩ := L.reachable_of_modifyAllocates D S hinit (fun c hc => (hcalls c hc).1)
    (fun c hc => (hcalls c hc).2) hrun
  obtain ⟨es, hes, hentry, hroom, hfile⟩ := L.saved h hsave hfits
  have hlen : es.length < 2147483648 := by
    have := hcount _ (L.count h)
    rw [← Map.size_mapVal Entry.value, hes.size] at this
    exact_mod_cast this
  refine ⟨m, _, L.observes h, hfile, fun loadEnv hload => ?_⟩
  obtain ⟨s₁, m₁, hs₁, h₁, hm₁, htime⟩ := L.load hinit hes.nodup hentry hlen hroom hload
  have hvalue : m₁.mapVal Entry.value = m.mapVal Entry.value := hm₁.unique hes
  have hnone : ∀ k, m k = none ↔ m₁ k = none := by
    intro k
    have hk := congrFun hvalue k
    rw [Map.mapVal_apply, Map.mapVal_apply] at hk
    rw [← Option.map_eq_none_iff (f := Entry.value), ← hk, Option.map_eq_none_iff]
  refine ⟨s₁, m₁, hs₁, L.observes h₁, htime, fun env env₁ data henv henv₁ hdata hroom => ?_⟩
  have hroom₁ : Fits (m₁.size + (newKeys m₁ data).length) := by
    rwa [← Map.size_congr hnone, ← newKeys_congr hnone]
  have hkeys : ∀ item ∈ data, key item.record.1 ∧ AnyString item.record.2.value := fun item hi => ⟨hdata item hi, trivial⟩
  obtain ⟨s', hs', h'⟩ := L.sync h hkeys henv (B.room_newKeys h hroom)
  obtain ⟨s₁', hs₁', h₁'⟩ := L.sync h₁ hkeys henv₁ (B.room_newKeys h₁ hroom₁)
  refine ⟨s', s₁', hs', hs₁', ?_⟩
  rw [L.gets_eq_iff B h₁' h', Map.merge_mapVal_eq_iff hvalue]
  rfl

end Merge

/-- In the array, the red-black tree and the hash engine, a store that was saved and loaded takes the records of a peer
    like the store itself exactly when the readings of the clock at the load do not change a winner. -/
theorem merges_alike_after_load :
    MergesAlike arrayEngine kvsArrayCreate kvsArraySave kvsArrayLoad AnyString (· ≤ kvsArraySize)
      (fun T => arrayEngine.StringsFit T ∧ arrayEngine.CountFits T) SameWinners ∧
    MergesAlike rbtreeEngine kvsRbtreeCreate kvsRbtreeSave kvsRbtreeLoad AnyString (fun _ => True)
      (fun T => rbtreeEngine.StringsFit T ∧ rbtreeEngine.CountFits T) SameWinners ∧
    MergesAlike hashEngine kvsHashCreate kvsHashSave kvsHashLoad SlotInRange (fun _ => True)
      (fun H => hashEngine.StringsFit H ∧ hashEngine.CountFits H) SameWinners :=
  ⟨arrayLaws.mergesAlike arrayBounds arrayDeleteLaws.keeps arraySetKeeps arrayCreate_holds arraySavesEntries,
    rbtreeLaws.mergesAlike rbtreeBounds rbtreeDeleteLaws.keeps rbtreeSetKeeps rbtreeCreate_holds rbtreeSavesEntries,
    hashLaws.mergesAlike hashBounds hashDeleteKeeps hashSetKeeps hashCreate_holds hashSavesEntries⟩

/-! ### Why the conditions are there -/

theorem oneItem_run : Run.runs arrayEngine.exec kvsArrayCreate [.set (.calm 0) (.ofBytes [97]) (.ofBytes [98])] =
    some (oneItem (.ofBytes [97]) (.str (.ofBytes [98])), [.code 0]) := rfl

theorem oneItem_stringsFit : arrayEngine.StringsFit (oneItem (.ofBytes [97]) (.str (.ofBytes [98]))) := by
  intro k v hget
  by_cases hk : .ofBytes [97] = k
  · subst hk
    have hv : .ofBytes [98] = v := CharPtr.str.inj (Option.some.inj hget)
    subst hv
    decide
  · simp [arrayEngine, kvsArrayGet, oneItem_find, hk] at hget

/-- A record with a new value for the key of `oneItem`. -/
def newerRecord : List SyncData := [⟨[97], [99], 7⟩]

/-- The value that the key has after a save, a load at the time `t` and a merge. -/
def loadedValue (t : UInt64) : Option CharPtr := do
  let (file, _) ← kvsArraySave .good (oneItem (.ofBytes [97]) (.str (.ofBytes [98])))
  let (T, _) ← kvsArrayLoad (fun _ => .calm t) kvsArrayCreate file
  let (T', _) ← syncDataToLocal arrayEngine (fun _ => .calm 0) T newerRecord
  arrayEngine.get T' (.ofBytes [97])

/-- A map that the array with one item shows has room for another key. -/
theorem oneItem_room {m : Map CString Entry} {k : CString} {v : CharPtr}
    (hobs : arrayEngine.Observes AnyString (oneItem k v) m) :
    m.size + (newKeys m newerRecord).length ≤ kvsArraySize := by
  have hsub : {j | m j ≠ none} ⊆ {k} := by
    intro j hj
    by_contra hne
    obtain ⟨e, he⟩ := Option.ne_none_iff_exists'.mp hj
    have hget := ((hobs j trivial).2 e he).1
    have hkj : k ≠ j := fun h => hne h.symm
    simp [arrayEngine, kvsArrayGet, oneItem_find, hkj] at hget
  have hsize : m.size ≤ 1 :=
    (Set.ncard_le_ncard hsub (Set.finite_singleton k)).trans_eq (Set.ncard_singleton k)
  have hnew : (newKeys m newerRecord).length ≤ 1 := newKeys_length_le
  exact (Nat.add_le_add hsize hnew).trans (by decide)

/-- The value of the record is lost when the load is later than the record. -/
theorem lateLoad_differs : ¬MergesAlike arrayEngine kvsArrayCreate kvsArraySave kvsArrayLoad AnyString
    (· ≤ kvsArraySize) (fun T => arrayEngine.StringsFit T ∧ arrayEngine.CountFits T) fun _ _ _ => True := by
  intro h
  obtain ⟨m, file, hobs, hs, hl⟩ := h _ _ _ (by simp [Call.Strings, AnyString, Call.ModifyAllocates]) oneItem_run
    ⟨oneItem_stringsFit, oneItem_countFits _ _⟩
  obtain ⟨T, m₁, hload, -, -, hmerge⟩ := hl (fun _ => .calm 9) fun _ => Env.calm_allocates 9
  obtain ⟨T', T₁', hT', hT₁', hsame⟩ := hmerge (fun _ => .calm 0) (fun _ => .calm 0) newerRecord
    (fun _ => Env.calm_allocates 0) (fun _ => Env.calm_allocates 0) (fun _ _ => trivial) (oneItem_room hobs)
  have hvalue : loadedValue 9 = arrayEngine.get T₁' (.ofBytes [97]) := by
    simp only [loadedValue, hs, hload, hT₁', Option.bind_eq_bind, Option.bind_some]
  have hkept : loadedValue 9 = some (.str (.ofBytes [98])) := by decide +kernel
  have htaken : (syncDataToLocal arrayEngine (fun _ => .calm 0) (oneItem (.ofBytes [97]) (.str (.ofBytes [98])))
      newerRecord).bind (fun r => arrayEngine.get r.1 (.ofBytes [97])) = some (.str (.ofBytes [99])) := by
    decide +kernel
  rw [hT', Option.bind_some] at htaken
  have heq := hsame.mpr trivial (.ofBytes [97]) trivial
  rw [← hvalue, hkept, htaken] at heq
  revert heq
  decide

theorem longKey_merges {n : Nat} (hn : n = UInt32.size) :
    ¬MergesAlike arrayEngine kvsArrayCreate kvsArraySave kvsArrayLoad AnyString (· ≤ kvsArraySize)
      (fun T => arrayEngine.CountFits T) SameWinners := by
  intro h
  obtain ⟨m, file, -, hs, hl⟩ := h _ _ _ (by simp [Call.Strings, AnyString, Call.ModifyAllocates]) (longKey_run n)
    (oneItem_countFits _ _)
  obtain ⟨T, m₁, hload, -⟩ := hl (fun _ => .calm 0) fun _ => Env.calm_allocates 0
  rw [longKey_load hn hs] at hload
  cases hload

theorem manyKeys_merges {n : Nat} (hn : n = 2147483648) :
    ¬MergesAlike rbtreeEngine kvsRbtreeCreate kvsRbtreeSave kvsRbtreeLoad AnyString (fun _ => True)
      (fun T => rbtreeEngine.StringsFit T) SameWinners := by
  intro h
  obtain ⟨calls, T, outs, m, hcalls, hrun, hT, hsize, hfits, hload⟩ := manyKeys_load hn
  obtain ⟨m', file, -, hs, hl⟩ := h calls T outs hcalls hrun hfits
  obtain ⟨T₁, m₁, hT₁, -, -, hmerge⟩ := hl (fun _ => .calm 0) fun _ => Env.calm_allocates 0
  rw [hload file hs] at hT₁
  cases hT₁
  obtain ⟨T', T₁', hT', hT₁', hsame⟩ := hmerge (fun _ => .calm 0) (fun _ => .calm 0) []
    (fun _ => Env.calm_allocates 0) (fun _ => Env.calm_allocates 0) (by simp) trivial
  cases hT'
  cases hT₁'
  have hget := hsame.mpr fun k e e₁ r _ _ hr => by simp [offers] at hr
  have hempty := (rbtreeLaws.gets_eq_iff rbtreeBounds rbtreeCreate_holds hT).mp hget
  have hzero : m.size = 0 := by
    rw [← Map.size_mapVal Entry.value, ← hempty, Map.mapVal_empty, Lists.nil.size]
    rfl
  rw [hsize, hn] at hzero
  cases hzero

/-- The claim fails for a load that is later than a record, and it needs the other conditions, too. -/
theorem merges_alike_conditions_needed :
    ¬MergesAlike arrayEngine kvsArrayCreate kvsArraySave kvsArrayLoad AnyString (· ≤ kvsArraySize) (fun _ => True)
      (fun _ _ _ => True) ∧
    ¬MergesAlike arrayEngine kvsArrayCreate kvsArraySave kvsArrayLoad AnyString (· ≤ kvsArraySize)
      (fun T => arrayEngine.StringsFit T ∧ arrayEngine.CountFits T) (fun _ _ _ => True) ∧
    ¬MergesAlike arrayEngine kvsArrayCreate kvsArraySave kvsArrayLoad AnyString (· ≤ kvsArraySize)
      (fun T => arrayEngine.CountFits T) SameWinners ∧
    ¬MergesAlike rbtreeEngine kvsRbtreeCreate kvsRbtreeSave kvsRbtreeLoad AnyString (fun _ => True)
      (fun T => rbtreeEngine.StringsFit T) SameWinners :=
  ⟨fun h => lateLoad_differs fun calls T outs hcalls hrun _ => h calls T outs hcalls hrun trivial, lateLoad_differs,
    longKey_merges rfl, manyKeys_merges rfl⟩

/-- A load that is earlier than the record. -/
theorem merges_alike_after_load_early : ∃ file T T' T₁',
    kvsArraySave .good (oneItem (.ofBytes [97]) (.str (.ofBytes [98]))) = some (file, 0) ∧
    kvsArrayLoad (fun _ => .calm 3) kvsArrayCreate file = some (T, 0) ∧
    syncDataToLocal arrayEngine (fun _ => .calm 0) (oneItem (.ofBytes [97]) (.str (.ofBytes [98]))) newerRecord =
      some (T', 0) ∧
    syncDataToLocal arrayEngine (fun _ => .calm 0) T newerRecord = some (T₁', 0) ∧
    ∀ k, AnyString k → arrayEngine.get T₁' k = arrayEngine.get T' k := by
  obtain ⟨m, file, hobs, hs, hl⟩ := merges_alike_after_load.1 _ _ _
    (by simp [Call.Strings, AnyString, Call.ModifyAllocates]) oneItem_run ⟨oneItem_stringsFit, oneItem_countFits _ _⟩
  obtain ⟨T, m₁, hload, -, htime, hmerge⟩ := hl (fun _ => .calm 3) fun _ => Env.calm_allocates 3
  obtain ⟨T', T₁', hT', hT₁', hsame⟩ := hmerge (fun _ => .calm 0) (fun _ => .calm 0) newerRecord
    (fun _ => Env.calm_allocates 0) (fun _ => Env.calm_allocates 0) (fun _ _ => trivial) (oneItem_room hobs)
  refine ⟨file, T, T', T₁', hs, hload, hT', hT₁', hsame.mpr fun k e e₁ r he he₁ hr => Or.inl ?_⟩
  have hrec : r ∈ offers k (newerRecord.map SyncData.record) := List.argmax_mem hr
  simp only [offers, newerRecord, SyncData.record, List.map_cons, List.map_nil, List.mem_map, List.mem_filter,
    List.mem_singleton, decide_eq_true_eq] at hrec
  obtain ⟨_, ⟨rfl, rfl⟩, rfl⟩ := hrec
  have hold := ((hobs _ trivial).2 e he).2
  obtain ⟨n, hn⟩ := htime _ e₁ he₁
  have ht : e.timestamp = 0 := (Option.some.inj hold).symm
  rw [ht, hn]
  decide

end KvStore
