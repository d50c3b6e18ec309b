import KvStore.Theorems.RbtreeEngine

/-! # Runs of the red-black tree engine

Every run of calls from `kvs_rbtree_create` keeps a red-black search tree and answers what a map answers. -/

namespace KvStore
open RedBlack FiniteMap

/-- The memory holds a well-formed red-black search tree, `t`. -/
structure RbtreeShape (T : Rbtree) (t : RBTree Cell) : Prop where
  /-- Every link is in place: each node's children, the parent of each child, the root and its parent. -/
  linked : Linked T t
  distinct : (addrs t).Nodup ∧ T.nil ∉ addrs t
  increasing : t.toList.Pairwise fun a b => strcmp a.key b.key < 0
  rootBlack : t.rootColor = .black
  noRedRed : t.NoRedRed
  blackHeight : ∀ p ∈ t.paths, ∀ q ∈ t.paths, p.count .black = q.count .black
  sentinelBlack : T.color T.nil = some .black
  height : ∀ p ∈ t.paths, ∀ q ∈ t.paths, p.length ≤ 2 * q.length

theorem RbtreeInv.shape {T : Rbtree} {t : RBTree Cell} (h : RbtreeInv T t) : RbtreeShape T t where
  linked := h.rep.linked
  distinct := ⟨h.rep.nodup, fun hm => (h.rep.live _ hm).1 rfl⟩
  increasing := h.sorted.imp fun h => strcmp_neg.mpr h
  rootBlack := h.valid.1
  noRedRed := by
    obtain ⟨-, n, hn⟩ := h.valid
    exact hn.noRedRed
  blackHeight p hp q hq := by
    obtain ⟨-, n, hn⟩ := h.valid
    exact (hn.count_black p hp).trans (hn.count_black q hq).symm
  sentinelBlack := h.rep.sentinel
  height := h.valid.length_path_le

theorem rbtree_runs {calls : List Call} (h : ∀ c ∈ calls, c.Ok AnyString AnyString) :
    ∃ T, Run.runs rbtreeEngine.exec kvsRbtreeCreate calls =
        some (T, (Run.execs (MapSpec.step rbtreeAnswers View.values) Map.empty calls).2) ∧
      Engine.Shows RbtreeHolds View.values T
        (Run.execs (MapSpec.step rbtreeAnswers View.values) Map.empty calls).1 :=
  rbtree_simulates.runs ⟨Map.empty, rbtreeCreate_holds, rfl⟩ h

/-- After any calls the memory holds a well-formed red-black search tree. -/
theorem rbtree_run_shape {calls : List Call} (h : ∀ c ∈ calls, c.Ok AnyString AnyString) :
    ∃ T outs t, Run.runs rbtreeEngine.exec kvsRbtreeCreate calls = some (T, outs) ∧ RbtreeShape T t := by
  obtain ⟨T, hrun, m, ⟨t, hi, -⟩, -⟩ := rbtree_runs h
  exact ⟨T, _, t, hrun, hi.shape⟩

/-- A run of a few calls that inserts, overwrites and deletes. -/
def someCalls : List Call :=
  [.set (Env.calm 1) (.ofBytes [98]) (.ofBytes [1]), .set (Env.calm 2) (.ofBytes [97]) (.ofBytes [2]),
    .setWithTimestamp (Env.calm 3) (.ofBytes [99]) (.ofBytes [3]) 7, .modify (Env.calm 4) (.ofBytes [97]) (.ofBytes [4]),
    .delete (.ofBytes [98]), .get (.ofBytes [97]), .count]

theorem someCalls_ok : ∀ c ∈ someCalls, c.Ok AnyString AnyString := by
  simp [someCalls, Call.Ok, AnyString, Env.calm_allocates]

theorem rbtree_run_shape_someCalls :
    ∃ T outs t, Run.runs rbtreeEngine.exec kvsRbtreeCreate someCalls = some (T, outs) ∧ RbtreeShape T t :=
  rbtree_run_shape someCalls_ok

/-- The engine answers every run of calls as a map from keys to values does, and at the end `get`, `exist` and
    `count` agree with that map on every key. -/
theorem rbtree_refines_map {calls : List Call} (h : ∀ c ∈ calls, c.Ok AnyString AnyString) :
    ∃ T m outs, Run.execs (MapSpec.step rbtreeAnswers View.values) Map.empty calls = (m, outs) ∧
      Run.runs rbtreeEngine.exec kvsRbtreeCreate calls = some (T, outs) ∧
      (∀ k v, m k = some v → kvsRbtreeGet T k = some (.str v) ∧ kvsRbtreeExist T k = some 0) ∧
      (∀ k, m k = none → kvsRbtreeGet T k = some .null ∧ kvsRbtreeExist T k = some (-2)) ∧
      kvsRbtreeCount T = some (m.size : Int) := by
  obtain ⟨T, hrun, m, hm, heq⟩ := rbtree_runs h
  refine ⟨T, _, _, rfl, hrun, ?_, ?_, ?_⟩
  · intro k v hk
    rw [← heq, Map.mapVal_apply, Option.map_eq_some_iff] at hk
    obtain ⟨e, he, rfl⟩ := hk
    exact ⟨hm.get_present he, hm.exist_present he⟩
  · intro k hk
    rw [← heq, Map.mapVal_apply, Option.map_eq_none_iff] at hk
    exact ⟨hm.get_absent hk, hm.exist_absent hk⟩
  · rw [hm.count, ← heq, Map.size_mapVal]

theorem rbtree_refines_map_someCalls :
    ∃ T m outs, Run.execs (MapSpec.step rbtreeAnswers View.values) Map.empty someCalls = (m, outs) ∧
      Run.runs rbtreeEngine.exec kvsRbtreeCreate someCalls = some (T, outs) ∧
      (∀ k v, m k = some v → kvsRbtreeGet T k = some (.str v) ∧ kvsRbtreeExist T k = some 0) ∧
      (∀ k, m k = none → kvsRbtreeGet T k = some .null ∧ kvsRbtreeExist T k = some (-2)) ∧
      kvsRbtreeCount T = some (m.size : Int) :=
  rbtree_refines_map someCalls_ok

end KvStore
