import KvStore.Theorems.Backend

/-! The range queries and the dumps of the four engines: whatever calls have led to a store, they give what the
    abstract map says, whichever of the four algorithms finds it. -/

namespace KvStore
open FiniteMap

/-- A `set` that returns leaves a list of a map, even when its allocations fail. -/
theorem skipSetKeeps : skiptableEngine.SetKeeps SkipHolds Short Short := by
  intro env T m k v t T' n h hk _ hs
  obtain ⟨L, hi, hl⟩ := id h
  rcases hi.set_buffers hs with ⟨-, rfl⟩ | ⟨-, l₁, l₂, c, rfl, hne, h', hkey, -⟩
  · exact ⟨m, h⟩
  · rw [CString.ofBytes_buf] at hne hkey
    rw [CString.trunc_of_le hk] at hkey
    have hnone : (m.mapVal Entry.stored) c.key = none := by
      rw [hl.apply_eq_none, hkey, List.map_map, List.mem_map, not_exists]
      exact fun a ha => hne a ha.1 ha.2
    refine ⟨m.insert c.key ⟨c.value, c.timestamp⟩, _, h', ?_⟩
    rw [List.map_append] at hl
    rw [List.map_append, List.map_cons, Map.mapVal_insert]
    exact hl.insert hnone

namespace EngineKind
variable (kind : EngineKind)

theorem setKeeps : kind.engine.SetKeeps kind.Holds kind.Key kind.Val := by
  cases kind with
  | array => exact arraySetKeeps
  | rbtree => exact rbtreeSetKeeps
  | hash => exact hashSetKeeps
  | skiptable => exact skipSetKeeps

theorem deleteKeeps : kind.engine.DeleteKeeps kind.Holds kind.Key := by
  intro s m k h hk
  obtain ⟨s', n, m', hs, h', -⟩ := kind.erases h hk
  exact ⟨s', n, m', hs, h'⟩

/-- What calls lead to holds a map, when the allocations of `modify` succeed. -/
theorem reachable_holds {calls : List Call} {s : kind.Store} {outs : List Ret}
    (hcalls : ∀ c ∈ calls, c.Strings kind.Key kind.Val ∧ c.ModifyAllocates)
    (hrun : Run.runs kind.engine.exec kind.created calls = some (s, outs)) : ∃ m, kind.Holds s m :=
  kind.laws.reachable_of_modifyAllocates kind.deleteKeeps kind.setKeeps kind.created_holds
    (fun c hc => (hcalls c hc).1) (fun c hc => (hcalls c hc).2) hrun

/-- The range query from `startKey` to `endKey` gives what the entries `m` of the store are there. -/
def Ranges (s : kind.Store) (m : Map CString Entry) (env : Env) (startKey endKey : CString) : Prop :=
  ∃ res es, Lists es (between m startKey endKey) ∧ Increasing es ∧
    kind.scan.range env s startKey endKey = some (res, es.map item) ∧ (es ≠ [] ∧ res = 0 ∨ es = [] ∧ 0 < res)

/-- The dump gives the entries `m` of the store. -/
def Dumps (s : kind.Store) (m : Map CString Entry) (env : Env) : Prop :=
  ∃ es, Lists es m ∧ kind.scan.getAll env s = some (0, es.map item)

section Holds
variable {kind} {s : kind.Store} {m : Map CString Entry} {env : Env} {a b : CString}

/-- A range query returns when it can copy what it finds. -/
theorem Holds.ranges_iff (h : kind.Holds s m) (henv : env.Allocates) (hab : strcmp a b ≤ 0) :
    kind.Ranges s m env a b ↔ MapOf kind.Copyable (between m a b) := by
  constructor
  · rintro ⟨res, es, -, -, hrange, -⟩
    by_contra hm
    rw [kind.scanLaws.range_none h henv (strcmp_nonpos.mp hab) hm] at hrange
    cases hrange
  · intro hm
    obtain ⟨es, n, hl, hinc, hpos, hrange⟩ := kind.scanLaws.range_of h henv (strcmp_nonpos.mp hab) hm
    refine ⟨_, es, hl, hinc, hrange, ?_⟩
    by_cases hes : es = []
    · exact Or.inr ⟨hes, by rwa [if_pos hes]⟩
    · exact Or.inl ⟨hes, if_neg hes⟩

theorem Holds.dumps_iff (h : kind.Holds s m) (henv : env.Allocates) :
    kind.Dumps s m env ↔ MapOf kind.Copyable m := by
  refine ⟨?_, kind.scanLaws.getAll_of h henv⟩
  rintro ⟨es, -, hall⟩
  by_contra hm
  rw [kind.scanLaws.getAll_none h henv hm] at hall
  cases hall

end Holds

/-- In every store that calls lead to, whichever the engine: the range query and the dump give the entries that the
    reads show, each once, the range query in the order of the keys, exactly when the keys and values to copy are not
    too short for the engine. -/
theorem scans_agree_iff {calls : List Call} {s : kind.Store} {outs : List Ret}
    (hcalls : ∀ c ∈ calls, c.Strings kind.Key kind.Val ∧ c.ModifyAllocates)
    (hrun : Run.runs kind.engine.exec kind.created calls = some (s, outs)) :
    ∃ m, kind.engine.Observes kind.Key s m ∧ (∀ k, m k ≠ none → kind.Key k) ∧ kind.engine.count s = some (m.size : Int) ∧
      ∀ env : Env, env.Allocates →
        (∀ startKey endKey, strcmp startKey endKey ≤ 0 →
          (kind.Ranges s m env startKey endKey ↔ MapOf kind.Copyable (between m startKey endKey))) ∧
        (∀ startKey endKey, 0 < strcmp startKey endKey →
          ∃ res items, kind.scan.range env s startKey endKey = some (res, items) ∧ res < 0) ∧
        (kind.Dumps s m env ↔ MapOf kind.Copyable m) := by
  obtain ⟨m, h⟩ := kind.reachable_holds hcalls hrun
  refine ⟨m, kind.laws.observes h, fun k hk => kind.bounds.key_of_mem h hk, kind.laws.count h, fun env henv => ?_⟩
  exact ⟨fun a b hab => h.ranges_iff henv hab, fun a b hab => ⟨-2, [], kind.scanLaws.reversed (strcmp_pos.mp hab), by decide⟩,
    h.dumps_iff henv⟩

/-- Two entries that were set in the other order, one of them with a short value. -/
def twoSets : List Call :=
  [.set (.calm 1) (.ofBytes (ascii "key-two")) (.ofBytes (ascii "b")),
    .set (.calm 2) (.ofBytes (ascii "key-one")) (.ofBytes (ascii "value-a"))]

theorem scans_agree_iff_twoSets : ∃ T outs, Run.runs rbtreeEngine.exec kvsRbtreeCreate twoSets = some (T, outs) ∧
    ∃ m, rbtreeEngine.Observes AnyString T m ∧ (∀ k, m k ≠ none → AnyString k) ∧
      rbtreeEngine.count T = some (m.size : Int) ∧ ∀ env : Env, env.Allocates →
        (∀ startKey endKey, strcmp startKey endKey ≤ 0 → (EngineKind.rbtree.Ranges T m env startKey endKey ↔
          MapOf EngineKind.rbtree.Copyable (between m startKey endKey))) ∧
        (∀ startKey endKey, 0 < strcmp startKey endKey →
          ∃ res items, EngineKind.rbtree.scan.range env T startKey endKey = some (res, items) ∧ res < 0) ∧
        (EngineKind.rbtree.Dumps T m env ↔ MapOf EngineKind.rbtree.Copyable m) := by
  have hcalls : ∀ c ∈ twoSets, c.Strings AnyString AnyString ∧ c.ModifyAllocates := by
    simp [twoSets, Call.Strings, Call.ModifyAllocates, AnyString]
  refine ⟨_, _, rfl, ?_⟩
  exact scans_agree_iff .rbtree hcalls rfl

/-- The entry of one byte each that the tree cannot copy. -/
def shortSet : List Call := [.set (.calm 1) (.ofBytes (ascii "a")) (.ofBytes (ascii "b"))]

theorem shortSet_range : (∀ c ∈ shortSet, c.Strings AnyString AnyString ∧ c.ModifyAllocates) ∧
    (Env.calm 0).Allocates ∧ ∃ T outs, Run.runs rbtreeEngine.exec kvsRbtreeCreate shortSet = some (T, outs) ∧
      ∀ m, ¬EngineKind.rbtree.Ranges T m (.calm 0) (.ofBytes (ascii "a")) (.ofBytes (ascii "a")) ∧
        ¬EngineKind.rbtree.Dumps T m (.calm 0) := by
  refine ⟨by simp [shortSet, Call.Strings, Call.ModifyAllocates, AnyString], Env.calm_allocates 0, _, _, rfl, ?_⟩
  refine fun m => ⟨?_, ?_⟩
  · rintro ⟨res, es, -, -, hrange, -⟩
    cases hrange
  · rintro ⟨es, -, hall⟩
    cases hall

end EngineKind

end KvStore
