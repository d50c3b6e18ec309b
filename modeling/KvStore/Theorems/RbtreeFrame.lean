import KvStore.Theorems.Sound

/-! What `kvs_rbtree_delete` does to the entries of other keys: it keeps their values, and their timestamps unless the
    node of the deleted key has two children and a timestamp of its own. -/

namespace KvStore
open RedBlack

section Cells
variable {T : Rbtree} {t : RBTree Cell} {k : CString} {e : Cell}

theorem RbtreeInv.exist_iff (h : RbtreeInv T t) (k : CString) :
    kvsRbtreeExist T k = some 0 ↔ ∃ e ∈ t.toList, e.key = k := by
  rcases h.search k with ⟨hs, hk⟩ | ⟨ctx, c, l, e, r, rfl, he, hs, hne⟩
  · simp only [kvsRbtreeExist, hs, Option.bind_eq_bind, Option.bind_some, if_true]
    refine iff_of_false (by decide) ?_
    rintro ⟨e, he, hek⟩
    exact hk e he hek
  · simp only [kvsRbtreeExist, hs, Option.bind_eq_bind, Option.bind_some, if_neg hne]
    exact iff_of_true trivial ⟨e, by simp [toList_plug, RBTree.toList], he⟩

theorem RbtreeInv.timestamp_mem (h : RbtreeInv T t) (he : e ∈ t.toList) : T.timestamp e.ptr = some e.timestamp := by
  obtain ⟨ctx, c, l, r, rfl, -⟩ := h.search_mem he
  exact (h.rep.fields (s := .left)).timestamp

theorem RbtreeInv.getTimestamp_mem (h : RbtreeInv T t) (he : e ∈ t.toList) :
    kvsRbtreeGetTimestamp T e.key = some e.timestamp := by
  obtain ⟨-, -, -, -, -, hs, -⟩ := h.search_mem he
  simp only [kvsRbtreeGetTimestamp, hs, Option.bind_eq_bind, Option.bind_some, h.timestamp_mem he]

end Cells

/-- The reads of each other key that is stored give after the deletion what they gave before. -/
def DeleteKeepsOthers (T : Rbtree) (k : CString) : Prop :=
  ∃ T' n, kvsRbtreeDelete T k = some (T', n) ∧ ∀ j, j ≠ k → kvsRbtreeExist T j = some 0 →
    kvsRbtreeGet T' j = kvsRbtreeGet T j ∧ kvsRbtreeGetTimestamp T' j = kvsRbtreeGetTimestamp T j

/-- When the node of the key has two children, its successor has the same timestamp. -/
def SuccessorAgrees (T : Rbtree) (k : CString) : Prop :=
  ∀ z y, rbtreeSearch T k = some z → z ≠ T.nil → T.left z ≠ some T.nil → T.right z ≠ some T.nil →
    rbtreeSuccessor T z = some y → T.timestamp y = T.timestamp z

section Delete
variable {T T' : Rbtree} {t t' : RBTree Cell} {k : CString} {e : Cell} {n : Int}

/-- An entry that is still there reads as before. -/
theorem reads_eq (h : RbtreeInv T t) (h' : RbtreeInv T' t') {a : Cell} (ha : a ∈ t.toList) (ha' : a ∈ t'.toList) :
    kvsRbtreeGet T' a.key = kvsRbtreeGet T a.key ∧ kvsRbtreeGetTimestamp T' a.key = kvsRbtreeGetTimestamp T a.key := by
  rw [h.get_mem ha, h'.get_mem ha', h.getTimestamp_mem ha, h'.getTimestamp_mem ha']
  exact ⟨rfl, rfl⟩

theorem TakenOut.keepsOthers (h : RbtreeInv T t) (h' : RbtreeInv T' t') (hout : TakenOut e t.toList t'.toList)
    (hs : kvsRbtreeDelete T e.key = some (T', n)) : DeleteKeepsOthers T e.key := by
  obtain ⟨l₁, l₂, hes, hes'⟩ := hout
  refine ⟨T', n, hs, fun j hj hstored => ?_⟩
  obtain ⟨a, ha, rfl⟩ := (h.exist_iff j).mp hstored
  refine reads_eq h h' ha ?_
  rw [hes, List.mem_append, List.mem_cons] at ha
  rw [hes', List.mem_append]
  rcases ha with ha | rfl | ha
  · exact Or.inl ha
  · exact absurd rfl hj
  · exact Or.inr ha

/-- The timestamp of the successor is the one that may be lost. -/
theorem TakenOver.keepsOthers_iff (h : RbtreeInv T t) (h' : RbtreeInv T' t') {l₁ l₂ : List Cell} {y : Cell}
    (hes : t.toList = l₁ ++ e :: y :: l₂)
    (hes' : t'.toList = l₁ ++ { e with key := y.key, value := y.value } :: l₂)
    (hs : kvsRbtreeDelete T e.key = some (T', n)) : DeleteKeepsOthers T e.key ↔ y.timestamp = e.timestamp := by
  have hy : y ∈ t.toList := by simp [hes]
  have hy' : ({ e with key := y.key, value := y.value } : Cell) ∈ t'.toList := by simp [hes']
  have hne : y.key ≠ e.key := by
    have hsorted := h.sorted
    rw [hes, Sorted, List.pairwise_append] at hsorted
    exact ((List.pairwise_cons.mp hsorted.2.1).1 y List.mem_cons_self).ne'
  constructor
  · rintro ⟨T₁, n₁, hs₁, hkeeps⟩
    rw [hs] at hs₁
    cases hs₁
    have htime := (hkeeps y.key hne ((h.exist_iff y.key).mpr ⟨y, hy, rfl⟩)).2
    rw [h.getTimestamp_mem hy, h'.getTimestamp_mem hy'] at htime
    exact (Option.some.inj htime).symm
  · intro htime
    refine ⟨T', n, hs, fun j hj hstored => ?_⟩
    obtain ⟨a, ha, rfl⟩ := (h.exist_iff j).mp hstored
    have hmem := ha
    rw [hes, List.mem_append, List.mem_cons, List.mem_cons] at hmem
    rcases hmem with hmem | rfl | rfl | hmem
    · exact reads_eq h h' ha (by simp [hes', hmem])
    · exact absurd rfl hj
    · rw [h.get_mem hy, h.getTimestamp_mem hy, htime]
      have hget := h'.get_mem hy'
      have htimestamp := h'.getTimestamp_mem hy'
      exact ⟨hget, htimestamp⟩
    · exact reads_eq h h' ha (by simp [hes', hmem])

theorem RbtreeInv.keepsOthers_iff (h : RbtreeInv T t) (k : CString) : DeleteKeepsOthers T k ↔ SuccessorAgrees T k := by
  rcases h.search k with ⟨hs, hk⟩ | ⟨ctx, c, l, e, r, rfl, rfl, hs, hne⟩
  · refine iff_of_true ⟨T, -2, ?_, fun _ _ _ => ⟨rfl, rfl⟩⟩ fun z y hz hnil => ?_
    · simp only [kvsRbtreeDelete, hs, Option.bind_eq_bind, Option.bind_some, if_true]
    · rw [hs] at hz
      exact absurd (Option.some.inj hz).symm hnil
  · have F := h.rep.fields (s := .left)
    obtain ⟨T', t', hdelete, h', ⟨hone, hout⟩ | ⟨htwo, l₁, y, l₂, hsucc, hes, hes'⟩⟩ := h.delete_cases hs hne
    · refine iff_of_true (hout.keepsOthers h h' hdelete) fun z y hz _ hleft hright => ?_
      rw [hs, Option.some.injEq] at hz
      subst hz
      rcases hone with rfl | rfl
      · exact absurd F.left hleft
      · exact absurd F.right hright
    · rw [TakenOver.keepsOthers_iff h h' hes hes' hdelete]
      have hy : T.timestamp y.ptr = some y.timestamp := h.timestamp_mem (by simp [hes])
      constructor
      · intro htime z y' hz _ _ _ hsucc'
        rw [hs, Option.some.injEq] at hz
        subst hz
        rw [hsucc, Option.some.injEq] at hsucc'
        subst hsucc'
        rw [hy, F.timestamp, htime]
      · intro hagrees
        have hleft : T.left e.ptr ≠ some T.nil := fun hl =>
          h.rep.left_ne_nil htwo.1 (Option.some.inj (F.left.symm.trans hl))
        have hright : T.right e.ptr ≠ some T.nil := fun hr =>
          h.rep.right_ne_nil htwo.2 (Option.some.inj (F.right.symm.trans hr))
        have htime := hagrees e.ptr y.ptr hs hne hleft hright hsucc
        rw [hy, F.timestamp] at htime
        exact Option.some.inj htime

end Delete

/-- In every store that calls lead to, whatever their allocations come to: a deletion leaves the entries of the other
    keys as they were exactly when the successor of a node with two children has the timestamp of the node. -/
theorem rbtree_delete_frame_iff {calls : List Call} {T : Rbtree} {outs : List Ret}
    (hrun : Run.runs rbtreeEngine.exec kvsRbtreeCreate calls = some (T, outs)) (k : CString) :
    DeleteKeepsOthers T k ↔ SuccessorAgrees T k := by
  obtain ⟨t, h⟩ : EngineKind.Sound .rbtree T :=
    EngineKind.rbtreeKeeps.runs rbtreeLaws.set_eq rbtreeLaws.modify_eq (EngineKind.created_sound .rbtree) hrun
  exact h.keepsOthers_iff k

/-- Three keys, the middle one first, so that it comes to the root. -/
def threeSets : List Call :=
  [.setWithTimestamp (.calm 0) (.ofBytes [98]) (.ofBytes [2]) 2,
    .setWithTimestamp (.calm 0) (.ofBytes [97]) (.ofBytes [1]) 1,
    .setWithTimestamp (.calm 0) (.ofBytes [99]) (.ofBytes [3]) 3]

/-- The deletion of a leaf. -/
theorem rbtree_delete_frame_iff_leaf : ∃ T outs, Run.runs rbtreeEngine.exec kvsRbtreeCreate threeSets = some (T, outs) ∧
    (DeleteKeepsOthers T (.ofBytes [97]) ↔ SuccessorAgrees T (.ofBytes [97])) := by
  refine ⟨_, _, rfl, ?_⟩
  exact @rbtree_delete_frame_iff threeSets _ _ rfl (.ofBytes [97])

/-- The deletion of the root gives the key 99 the timestamp 2. -/
theorem rbtree_delete_root : ∃ T outs, Run.runs rbtreeEngine.exec kvsRbtreeCreate threeSets = some (T, outs) ∧
    kvsRbtreeGetTimestamp T (.ofBytes [99]) = some 3 ∧ ¬DeleteKeepsOthers T (.ofBytes [98]) := by
  refine ⟨_, _, rfl, rfl, ?_⟩
  rintro ⟨T', n, hdelete, hkeeps⟩
  have htime := (hkeeps (.ofBytes [99]) (by decide) rfl).2
  cases hdelete
  revert htime
  decide

end KvStore
