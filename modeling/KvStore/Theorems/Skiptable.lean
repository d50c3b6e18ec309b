import KvStore.Theorems.SkiptableEngine

/-! # Runs of the skip list engine

Whatever levels `random_level` draws, every run of calls from `kvs_skiptable_create` keeps the levels of the list
in order and answers what a map from keys to entries answers. -/

namespace KvStore
open FiniteMap

/-- The memory holds a well-formed skip list of the nodes `L`. -/
structure SkipShape (T : Skiptable) (L : List SkipCell) : Prop where
  /-- Following `forward[i]` from the header visits the nodes that reach level `i`, and ends. -/
  linked : ∀ i ≤ maxLevel, LinkedAt T L i
  distinct : (T.header :: L.map SkipCell.ptr).Nodup
  exact : ∀ c ∈ L, ∀ i, c.ptr ∈ reach i L ↔ i ≤ c.level
  slots : ∀ c ∈ L, T.nodes c.ptr = some c.node ∧ 1 ≤ c.level ∧ c.level ≤ maxLevel
  increasing : ∀ i, (L.filter fun c => i ≤ c.level).Pairwise fun c d => strcmp c.key d.key < 0
  sublist : ∀ i, (reach (i + 1) L).Sublist (reach i L)
  above : ∀ i ≤ maxLevel, T.level < i → T.forward T.header i = some 0
  size : T.size = (reach 0 L).length
  /-- A search reads only slots that the nodes own. -/
  search : ∀ k : CString, ∃ r, skipFind T k.buf = some r

theorem mem_reach_iff {L : List SkipCell} (hnd : (L.map SkipCell.ptr).Nodup) {c : SkipCell} (hc : c ∈ L) {i : Nat} :
    c.ptr ∈ reach i L ↔ i ≤ c.level := by
  rw [mem_reach]
  constructor
  · rintro ⟨d, hd, hi, hptr⟩
    rwa [← List.inj_on_of_nodup_map hnd hd hc hptr]
  · exact fun hi => ⟨c, hc, hi, rfl⟩

theorem SkipInv.shape {T : Skiptable} {L : List SkipCell} (h : SkipInv T L) (hnd : (L.map SkipCell.key).Nodup) :
    SkipShape T L where
  linked := h.rep.linked
  distinct := h.rep.distinct
  exact c hc i := mem_reach_iff (List.nodup_cons.mp h.rep.distinct).2 hc
  slots c hc := ⟨h.rep.nodes c hc, (h.rep.levels c hc).1, (h.rep.levels c hc).2.trans h.rep.levelMax⟩
  increasing i := by
    have hne : L.Pairwise fun c d => c.key ≠ d.key := List.pairwise_map.mp hnd
    have hlt : L.Pairwise fun c d => strcmp c.key d.key < 0 :=
      (h.sorted.and hne).imp fun hcd => strcmp_neg.mpr (lt_of_le_of_ne hcd.1 hcd.2)
    exact hlt.sublist List.filter_sublist
  sublist i := reach_mono (Nat.le_succ i)
  above i hi hlevel := by
    have hnil : reach i L = [] := reach_eq_nil fun c hc => lt_of_le_of_lt (h.rep.levels c hc).2 hlevel
    have hnext : T.forward T.header i = some ((reach i L).headD 0) := (h.rep.linked i hi).next_eq
    rw [hnext, hnil]
    rfl
  size := by rw [h.size, reach_zero, List.length_map]
  search k := by
    rcases h.find k with ⟨l₁, l₂, -, -, -, hf⟩ | ⟨l₁, c, l₂, -, -, -, hf, -⟩
    · exact ⟨_, hf⟩
    · exact ⟨_, hf⟩

/-- The entries that the nodes hold are the map. -/
theorem skip_lists {L : List SkipCell} {m : Map CString Entry}
    (h : Lists (L.map SkipCell.entry) (m.mapVal Entry.stored)) :
    Lists (L.map fun c => (c.key, (⟨c.value, c.timestamp⟩ : Entry))) m where
  nodup := by
    have hnd := h.nodup
    rw [List.map_map] at hnd ⊢
    exact hnd
  mem k e := by
    have hmem := h.mem k e.stored
    rw [Map.mapVal_apply, Option.map_eq_some_iff] at hmem
    constructor
    · intro he
      obtain ⟨c, hc, heq⟩ := List.mem_map.mp he
      obtain ⟨rfl, rfl⟩ := Prod.mk.inj heq
      obtain ⟨a, ha, hs⟩ := hmem.mp (List.mem_map.mpr ⟨c, hc, rfl⟩)
      rw [ha]
      obtain ⟨hv, ht⟩ := Prod.mk.inj hs
      cases a
      simp_all
    · intro he
      obtain ⟨c, hc, heq⟩ := List.mem_map.mp (hmem.mpr ⟨e, he, rfl⟩)
      refine List.mem_map.mpr ⟨c, hc, ?_⟩
      cases e
      simp_all [SkipCell.entry, Entry.stored]

/-- After any calls the memory holds a well-formed skip list of the entries of the map, and every call was answered
    as the map answers it, whatever the levels of the nodes. -/
theorem skip_run_refines_map {calls : List Call} (h : ∀ c ∈ calls, c.Ok Short Short) :
    ∃ T L m outs, Run.execs (MapSpec.step skipAnswers View.entries) Map.empty calls = (m, outs) ∧
      Run.runs skiptableEngine.exec kvsSkiptableCreate calls = some (T, outs) ∧ SkipShape T L ∧
      Lists (L.map fun c => (c.key, (⟨c.value, c.timestamp⟩ : Entry))) m := by
  have hrel : Engine.Shows SkipHolds View.entries kvsSkiptableCreate Map.empty := ⟨Map.empty, skipCreate_holds, rfl⟩
  obtain ⟨T, hrun, m, ⟨L, hi, hl⟩, heq⟩ := skip_simulates.runs hrel h
  have hm : m = (Run.execs (MapSpec.step skipAnswers View.entries) Map.empty calls).1 := by
    rw [← heq]
    exact Map.mapVal_id.symm
  have hnd := hl.nodup
  rw [List.map_map] at hnd
  exact ⟨T, L, _, _, rfl, hrun, hi.shape hnd, hm ▸ skip_lists hl⟩

/-- Surroundings in which `random_level` returns 3. -/
def promoting (now : UInt64) : Env := ⟨now, fun _ => true, fun n => n < 2⟩

/-- A run of a few calls that raises the table, unlinks its highest node and overwrites another. -/
def skipCalls : List Call :=
  [.set (Env.calm 1) (.ofBytes [98]) (.ofBytes [1]), .set (promoting 2) (.ofBytes [97]) (.ofBytes [2]),
    .setWithTimestamp (Env.calm 3) (.ofBytes [99]) (.ofBytes [3]) 7, .delete (.ofBytes [97]),
    .modify (Env.calm 4) (.ofBytes [98]) (.ofBytes [4]), .exist (.ofBytes [99]), .get (.ofBytes [98]), .count]

theorem skipCalls_ok : ∀ c ∈ skipCalls, c.Ok Short Short := by
  have hp : (promoting 2).Allocates := fun _ => rfl
  have hshort : ∀ b : UInt8, Short (.ofBytes [b]) := fun b =>
    (List.takeWhile_sublist _).length_le.trans (by simp)
  simp [skipCalls, Call.Ok, Env.calm_allocates, hp, hshort]

theorem skip_run_refines_map_skipCalls :
    ∃ T L m outs, Run.execs (MapSpec.step skipAnswers View.entries) Map.empty skipCalls = (m, outs) ∧
      Run.runs skiptableEngine.exec kvsSkiptableCreate skipCalls = some (T, outs) ∧ SkipShape T L ∧
      Lists (L.map fun c => (c.key, (⟨c.value, c.timestamp⟩ : Entry))) m :=
  skip_run_refines_map skipCalls_ok

end KvStore
