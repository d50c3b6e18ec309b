import KvStore.Theorems.SkiptableRep

/-! Insertion and deletion in a skip list: what the loops over the levels write, and that each level then links
    the nodes that reach it again. -/

namespace KvStore
open LinkedList

/-- Only links differ. -/
structure SameNodes (T T' : Skiptable) : Prop where
  nodes : T'.nodes = T.nodes
  header : T'.header = T.header
  level : T'.level = T.level
  size : T'.size = T.size
  next : T'.next = T.next

theorem SameNodes.refl (T : Skiptable) : SameNodes T T := ⟨rfl, rfl, rfl, rfl, rfl⟩

theorem SameNodes.trans {T T' T'' : Skiptable} (h : SameNodes T T') (h' : SameNodes T' T'') : SameNodes T T'' :=
  ⟨h'.nodes.trans h.nodes, h'.header.trans h.header, h'.level.trans h.level, h'.size.trans h.size,
    h'.next.trans h.next⟩

section Writes
variable {T T' : Skiptable} {p q r a : Ptr} {i j n m : Nat} {node : SkipNode} {w : List Ptr} {u : Nat → Ptr}

theorem forward_eq_some (h : T.forward p i = some q) : ∃ n, T.nodes p = some n ∧ i < n.slots := by
  simp only [Skiptable.forward, Option.bind_eq_bind, Option.bind_eq_some_iff] at h
  obtain ⟨n, hn, h⟩ := h
  split at h
  · exact ⟨n, hn, ‹_›⟩
  · cases h

theorem setForward_eq (hn : T.nodes p = some node) (hi : i < node.slots) (q : Ptr) :
    ∃ T', T.setForward p i q = some T' ∧ SameNodes T T' ∧
      ∀ r j, T'.forward r j = if r = p ∧ j = i then some q else T.forward r j := by
  refine ⟨{ T with links := Function.update T.links p (Function.update (T.links p) i (some q)) }, ?_,
    ⟨rfl, rfl, rfl, rfl, rfl⟩, ?_⟩
  · simp [Skiptable.setForward, hn, hi]
  · intro r j
    by_cases hr : r = p
    · subst hr
      by_cases hj : j = i
      · subst hj
        simp [Skiptable.forward, hn, hi]
      · simp [Skiptable.forward, hn, hj]
    · simp [Skiptable.forward, hr]

/-- The loop of an insertion puts the node `a` behind `u j` on each of its levels `j`. -/
theorem skipLink_eq (ha : T.nodes a = some node) (hslots : i + n ≤ node.slots)
    (hu : ∀ j, i ≤ j → j < i + n → w[j]? = some (u j) ∧ u j ≠ a ∧ ∃ q, T.forward (u j) j = some q) :
    ∃ T', skipLink w a n i T = some T' ∧ SameNodes T T' ∧
      ∀ r j, T'.forward r j = if i ≤ j ∧ j < i + n then
        (if r = u j then some a else if r = a then T.forward (u j) j else T.forward r j) else T.forward r j := by
  induction n generalizing i T with
  | zero =>
    refine ⟨T, rfl, .refl T, fun r j => (if_neg ?_).symm⟩
    omega
  | succ n ih =>
    obtain ⟨hui, hua, q, hq⟩ := hu i (le_refl i) (by omega)
    obtain ⟨T₁, h₁, hsame₁, hf₁⟩ := setForward_eq ha (show i < node.slots by omega) q
    obtain ⟨nu, hnu, hslot⟩ := forward_eq_some hq
    obtain ⟨T₂, h₂, hsame₂, hf₂⟩ := setForward_eq (T := T₁) (hsame₁.nodes ▸ hnu) hslot a
    have hsame := hsame₁.trans hsame₂
    -- the links of the other levels are those from before
    have hother : ∀ r j, j ≠ i → T₂.forward r j = T.forward r j := by
      intro r j hj
      rw [hf₂, if_neg (fun h => hj h.2), hf₁, if_neg (fun h => hj h.2)]
    obtain ⟨T', hT', hsame', hf'⟩ := ih (T := T₂) (i := i + 1) (hsame.nodes ▸ ha) (by omega) (by
      intro j hij hj
      obtain ⟨huj, hne, qj, hqj⟩ := hu j (by omega) (by omega)
      exact ⟨huj, hne, qj, by rw [hother _ j (by omega), hqj]⟩)
    refine ⟨T', ?_, hsame.trans hsame', ?_⟩
    · simp only [skipLink, Option.bind_eq_bind]
      rw [hui, Option.bind_some, hq, Option.bind_some, h₁, Option.bind_some, h₂, Option.bind_some, hT']
    · intro r j
      rw [hf']
      by_cases hj : j = i
      · subst hj
        have hout : ¬(j + 1 ≤ j ∧ j < j + 1 + n) := by omega
        have hin : j ≤ j ∧ j < j + (n + 1) := by omega
        rw [if_neg hout, if_pos hin, hf₂, hf₁]
        by_cases hr : r = u j
        · simp [hr]
        · simp [hr, hq]
      · rw [hother _ _ hj, hother _ _ hj]
        have hiff : (i + 1 ≤ j ∧ j < i + 1 + n) ↔ (i ≤ j ∧ j < i + (n + 1)) := by omega
        simp only [hiff]

/-- The loop of a deletion takes the node `a` out behind `u j` on its `m` levels, and stops. -/
theorem skipUnlink_eq (hm : m ≤ n)
    (hu : ∀ j, i ≤ j → j < i + m → w[j]? = some (u j) ∧ T.forward (u j) j = some a ∧ ∃ q, T.forward a j = some q)
    (hstop : m < n → w[i + m]? = some (u (i + m)) ∧ ∃ q, T.forward (u (i + m)) (i + m) = some q ∧ q ≠ a) :
    ∃ T', skipUnlink w a n i T = some T' ∧ SameNodes T T' ∧
      ∀ r j, T'.forward r j = if i ≤ j ∧ j < i + m ∧ r = u j then T.forward a j else T.forward r j := by
  induction m generalizing i n T with
  | zero =>
    refine ⟨T, ?_, .refl T, fun r j => (if_neg ?_).symm⟩
    · cases n with
      | zero => rfl
      | succ n =>
        obtain ⟨hui, q, hq, hne⟩ := hstop (Nat.succ_pos n)
        rw [Nat.add_zero] at hui hq
        simp [skipUnlink, hui, hq, hne]
    · omega
  | succ m ih =>
    obtain ⟨n, rfl⟩ : ∃ n', n = n' + 1 := ⟨n - 1, by omega⟩
    obtain ⟨hui, hua, q, hq⟩ := hu i (le_refl i) (by omega)
    obtain ⟨nu, hnu, hslot⟩ := forward_eq_some hua
    obtain ⟨T₁, h₁, hsame₁, hf₁⟩ := setForward_eq hnu hslot q
    have hother : ∀ r j, j ≠ i → T₁.forward r j = T.forward r j := fun r j hj => by rw [hf₁, if_neg (fun h => hj h.2)]
    obtain ⟨T', hT', hsame', hf'⟩ := ih (T := T₁) (i := i + 1) (n := n) (by omega) (by
      intro j hij hj
      rw [hother _ j (by omega), hother _ j (by omega)]
      exact hu j (by omega) (by omega)) (by
      intro hlt
      rw [hother _ _ (by omega), Nat.add_assoc, Nat.add_comm 1 m]
      exact hstop (by omega))
    refine ⟨T', ?_, hsame₁.trans hsame', ?_⟩
    · simp only [skipUnlink, Option.bind_eq_bind]
      rw [hui, Option.bind_some, hua, Option.bind_some, if_neg (by simp), hq, Option.bind_some, h₁, Option.bind_some,
        hT']
    · intro r j
      rw [hf']
      by_cases hj : j = i
      · subst hj
        have hout : ¬(j + 1 ≤ j ∧ j < j + 1 + m ∧ r = u j) := by omega
        rw [if_neg hout, hf₁]
        by_cases hr : r = u j
        · simp [hr, hq]
        · simp [hr]
      · rw [hother _ _ hj, hother _ _ hj]
        have hiff : (i + 1 ≤ j ∧ j < i + 1 + m) ↔ (i ≤ j ∧ j < i + (m + 1)) := by omega
        simp only [← and_assoc, hiff]

end Writes

section Levels
variable {T T' : Skiptable} {L l₁ l₂ : List SkipCell} {c : SkipCell} {i : Nat} {k : CString}

theorem LinkedAt.congr (h : LinkedAt T L i) (hh : T'.header = T.header)
    (hf : ∀ p ∈ T.header :: reach i L, T'.forward p i = T.forward p i) : LinkedAt T' L i := by
  unfold LinkedAt
  rw [hh]
  exact Links.congr h hf

/-- The last node before `k` on level `i` and the link to the first one behind. -/
theorem SkipRep.forward_lastAt (h : SkipRep T (l₁ ++ l₂)) (hi : i ≤ maxLevel) :
    T.forward (lastAt T i l₁) i = some ((reach i l₂).headD 0) := by
  have hlinks := h.linked i hi
  rw [LinkedAt, reach_append] at hlinks
  exact hlinks.next_last

theorem lastAt_mem : lastAt T i l₁ ∈ T.header :: l₁.map SkipCell.ptr :=
  List.cons_subset_cons T.header reach_sublist.subset List.getLastD_mem_cons

/-- Above the table the search would start at the header. -/
theorem SkipRep.lastAt_above (h : SkipRep T (l₁ ++ l₂)) (hi : T.level < i) : lastAt T i l₁ = T.header := by
  have hnil : reach i l₁ = [] :=
    reach_eq_nil fun c hc => lt_of_le_of_lt (h.levels c (List.mem_append_left l₂ hc)).2 hi
  rw [lastAt, hnil]
  rfl

theorem updates_getElem? (hi : i ≤ T.level) : (updates T l₁)[i]? = some (lastAt T i l₁) := by
  rw [updates, List.getElem?_map, List.getElem?_range (Nat.lt_succ_of_le hi)]
  rfl

/-- The array `update` after the levels that the new node adds were put to it. -/
theorem SkipRep.updates_extended (h : SkipRep T (l₁ ++ l₂)) {newLevel : Nat} (hi : i ≤ newLevel) :
    (updates T l₁ ++ List.replicate (newLevel - T.level) T.header)[i]? = some (lastAt T i l₁) := by
  by_cases hle : i ≤ T.level
  · rw [List.getElem?_append_left (by rw [updates, List.length_map, List.length_range]; omega), updates_getElem? hle]
  · rw [List.getElem?_append_right (by rw [updates, List.length_map, List.length_range]; omega),
      h.lastAt_above (by omega), List.getElem?_replicate, if_pos]
    rw [updates, List.length_map, List.length_range]
    omega

theorem randomLevelLoop_le {env : Env} {n level : Nat} (h : level ≤ maxLevel) :
    level ≤ randomLevelLoop env n level ∧ randomLevelLoop env n level ≤ maxLevel := by
  induction n generalizing level with
  | zero => exact ⟨le_refl level, h⟩
  | succ n ih =>
    rw [randomLevelLoop]
    split
    · next hc =>
      obtain ⟨hlow, hhigh⟩ := ih hc.2
      exact ⟨Nat.le_of_succ_le hlow, hhigh⟩
    · exact ⟨le_refl level, h⟩

theorem randomLevel_range (env : Env) : 1 ≤ randomLevel env ∧ randomLevel env ≤ maxLevel :=
  randomLevelLoop_le (by decide)

/-! ### Insertion -/

/-- The table with a node that is not linked yet. -/
def Skiptable.withNode (T : Skiptable) (n : SkipNode) : Skiptable :=
  { T with
    nodes := Function.update T.nodes T.next (some n)
    links := Function.update T.links T.next fun _ => none
    next := T.next + 1 }

theorem forward_withNode {n : SkipNode} {p : Ptr} (hp : p ≠ T.next) :
    (T.withNode n).forward p i = T.forward p i := by
  simp [Skiptable.withNode, Skiptable.forward, hp]

theorem createSkipNode_eq {env : Env} {key value : List UInt8} {k v : CString} {t : UInt64} {level : Nat}
    (henv : env.Allocates) (hk : strncpy255 key = some k) (hv : strncpy255 value = some v) :
    createSkipNode env T level key value t = some (some (T.withNode ⟨k, v, some t, level + 1⟩, T.next)) := by
  simp [createSkipNode, henv 0, henv 1, hk, hv, Skiptable.withNode]

theorem SkipRep.fresh (h : SkipRep T L) {p : Ptr} (hp : p ∈ T.header :: L.map SkipCell.ptr) : p ≠ T.next :=
  (h.live p hp).2.ne

/-- The links of one level after the insertion of `c`. -/
theorem SkipRep.linkedAt_insert (h : SkipRep T (l₁ ++ l₂)) (hi : i ≤ maxLevel) (hptr : c.ptr = T.next)
    (hh : T'.header = T.header)
    (hf : ∀ p, T'.forward p i = if i ≤ c.level then
      (if p = lastAt T i l₁ then some T.next else if p = T.next then T.forward (lastAt T i l₁) i else T.forward p i)
      else (T.withNode c.node).forward p i) : LinkedAt T' (l₁ ++ c :: l₂) i := by
  have hlinks := h.linked i hi
  have hold : ∀ p ∈ T.header :: reach i (l₁ ++ l₂), p ≠ T.next := fun p hp =>
    h.fresh (List.cons_subset_cons T.header reach_sublist.subset hp)
  by_cases hlevel : i ≤ c.level
  · have hnd := h.nodup_reach (i := i)
    rw [LinkedAt, reach_append] at hlinks
    rw [reach_append] at hnd hold
    rw [LinkedAt, hh, reach_append, reach_cons_of_le hlevel, hptr]
    have hlast : lastAt T i l₁ ≠ T.next :=
      hold _ (List.cons_subset_cons T.header (List.subset_append_left _ _) List.getLastD_mem_cons)
    refine hlinks.insert hnd ?_ ?_ ?_
    · simp only [hf, hlevel, if_true]
      exact if_pos rfl
    · simp only [hf, hlevel, if_true, if_neg hlast.symm]
      rfl
    · intro p hp hne
      simp only [hf, hlevel, if_true, if_neg (hold p hp)]
      exact if_neg hne
  · have hreach : reach i (l₁ ++ c :: l₂) = reach i (l₁ ++ l₂) := by
      rw [reach_append, reach_cons_of_lt (not_le.mp hlevel), reach_append]
    rw [LinkedAt, hreach]
    refine LinkedAt.congr hlinks hh fun p hp => ?_
    rw [hf, if_neg hlevel, forward_withNode (hold p hp)]

/-- Linking a new node on its levels. -/
theorem SkipRep.link (h : SkipRep T (l₁ ++ l₂)) (hptr : c.ptr = T.next) (hlow : 1 ≤ c.level) (hhigh : c.level ≤ maxLevel) :
    ∃ T', skipLink (updates T l₁ ++ List.replicate (c.level - T.level) T.header) T.next (c.level + 1) 0
        { T.withNode c.node with level := max T.level c.level } = some T' ∧
      SkipRep T' (l₁ ++ c :: l₂) ∧ T'.size = T.size := by
  have hlast : ∀ j, lastAt T j l₁ ≠ T.next := fun j => by
    have hmem : lastAt T j l₁ ∈ T.header :: (l₁ ++ l₂).map SkipCell.ptr :=
      List.cons_subset_cons _ (by simp) lastAt_mem
    exact h.fresh hmem
  have hread : ∀ j, j ≤ maxLevel → (T.withNode c.node).forward (lastAt T j l₁) j = some ((reach j l₂).headD 0) := by
    intro j hj
    rw [forward_withNode (hlast j), h.forward_lastAt hj]
  obtain ⟨T₃, hT₃, hsame, hf₃⟩ := skipLink_eq (T := { T.withNode c.node with level := max T.level c.level })
    (a := T.next) (i := 0) (n := c.level + 1) (u := fun j => lastAt T j l₁)
    (w := updates T l₁ ++ List.replicate (c.level - T.level) T.header) (Function.update_self ..)
    (by simp [SkipCell.node]) fun j _ hj => ⟨h.updates_extended (by omega), hlast j, _, hread j (by omega)⟩
  have hheader : T₃.header = T.header := hsame.header
  have hnode : T₃.nodes T.next = some c.node := by
    rw [hsame.nodes]
    exact Function.update_self ..
  have hnodes : ∀ p, p ≠ T.next → T₃.nodes p = T.nodes p := fun p hp => by
    rw [hsame.nodes]
    exact Function.update_of_ne hp ..
  have hptrs : (T₃.header :: (l₁ ++ c :: l₂).map SkipCell.ptr).Perm
      (T.next :: T.header :: (l₁ ++ l₂).map SkipCell.ptr) := by
    rw [hheader, List.map_append, List.map_cons, hptr, List.map_append]
    exact (List.perm_middle.cons T.header).trans (List.Perm.swap ..)
  have hmem : ∀ a ∈ l₁ ++ c :: l₂, a = c ∨ a ∈ l₁ ++ l₂ := by
    intro a ha
    simp only [List.mem_append, List.mem_cons] at ha ⊢
    tauto
  have hlevel : T₃.level = max T.level c.level := hsame.level
  refine ⟨T₃, hT₃, ⟨?_, ?_, ?_, ?_, ?_, ?_, ?_⟩, hsame.size⟩
  · rw [hheader, hnodes _ (h.fresh List.mem_cons_self)]
    exact h.header
  · intro a ha
    rcases hmem a ha with rfl | ha
    · rw [hptr]
      exact hnode
    · rw [hnodes _ (h.fresh (List.mem_cons_of_mem _ (List.mem_map_of_mem ha)))]
      exact h.nodes a ha
  · exact hptrs.nodup_iff.mpr (List.nodup_cons.mpr ⟨fun hm => h.fresh hm rfl, h.distinct⟩)
  · intro p hp
    have hnext : T₃.next = T.next + 1 := hsame.next
    rw [hnext]
    rcases List.mem_cons.mp (hptrs.mem_iff.mp hp) with rfl | hp
    · exact ⟨Nat.ne_zero_of_lt (h.live _ List.mem_cons_self).2, Nat.lt_succ_self _⟩
    · exact ⟨(h.live p hp).1, Nat.lt_succ_of_lt (h.live p hp).2⟩
  · intro a ha
    rw [hlevel]
    rcases hmem a ha with rfl | ha
    · exact ⟨hlow, le_max_right _ _⟩
    · exact ⟨(h.levels a ha).1, (h.levels a ha).2.trans (le_max_left _ _)⟩
  · rw [hlevel]
    exact max_le h.levelMax hhigh
  · intro i hi
    refine h.linkedAt_insert hi hptr hheader fun p => ?_
    rw [hf₃]
    by_cases hic : i ≤ c.level
    · have hin : 0 ≤ i ∧ i < 0 + (c.level + 1) := by omega
      rw [if_pos hin, if_pos hic]
      split
      · rfl
      · split
        · exact (forward_withNode (hlast i)).trans rfl
        · exact forward_withNode ‹_›
    · have hout : ¬(0 ≤ i ∧ i < 0 + (c.level + 1)) := by omega
      rw [if_neg hout, if_neg hic]
      rfl

/-- A new key gets a node between the smaller and the greater ones. -/
theorem SkipRep.insert (h : SkipRep T (l₁ ++ l₂)) {env : Env} {key value : List UInt8} {k' v : CString} {t : UInt64}
    (hcut : Cut k l₁ l₂) (hr : Reads key k (l₁ ++ l₂)) (hk : ∀ c ∈ l₂, c.key ≠ k) (henv : env.Allocates)
    (hkey : strncpy255 key = some k') (hval : strncpy255 value = some v) :
    ∃ T', kvsSkiptableSetWithTimestamp env T key value t = some (T', 0) ∧
      SkipRep T' (l₁ ++ ⟨T.next, k', v, t, randomLevel env⟩ :: l₂) ∧ T'.size = T.size + 1 := by
  obtain ⟨hlow, hhigh⟩ := randomLevel_range env
  obtain ⟨T', hT', h', hsize⟩ := h.link (c := ⟨T.next, k', v, t, randomLevel env⟩) rfl hlow hhigh
  refine ⟨{ T' with size := T'.size + 1 }, ?_, ⟨h'.header, h'.nodes, h'.distinct, h'.live, h'.levels, h'.levelMax,
    h'.linked⟩, ?_⟩
  · simp only [kvsSkiptableSetWithTimestamp, Option.bind_eq_bind]
    rw [h.find_none hcut hr hk, Option.bind_some]
    simp only [Option.isSome_none, Bool.false_eq_true, if_false]
    rw [createSkipNode_eq henv hkey hval, Option.bind_some]
    simp only [SkipCell.node] at hT'
    simp only [Skiptable.withNode] at hT' ⊢
    rw [hT', Option.bind_some]
  · change T'.size + 1 = _
    rw [hsize]

/-! ### Deletion -/

/-- The link of a node on a level that it reaches. -/
theorem SkipRep.forward_node (h : SkipRep T (l₁ ++ c :: l₂)) (hi : i ≤ maxLevel) (hlevel : i ≤ c.level) :
    T.forward c.ptr i = some ((reach i l₂).headD 0) := by
  have hlinks := h.linked i hi
  rw [LinkedAt, reach_append, reach_cons_of_le hlevel] at hlinks
  exact hlinks.drop.2.next_eq

/-- The links of one level after the node `c` was taken out. -/
theorem SkipRep.linkedAt_remove (h : SkipRep T (l₁ ++ c :: l₂)) (hi : i ≤ maxLevel) (hh : T'.header = T.header)
    (hf : ∀ p, T'.forward p i = if i ≤ c.level ∧ p = lastAt T i l₁ then T.forward c.ptr i else T.forward p i) :
    LinkedAt T' (l₁ ++ l₂) i := by
  have hlinks := h.linked i hi
  by_cases hlevel : i ≤ c.level
  · have hnd := h.nodup_reach (i := i)
    rw [LinkedAt, reach_append, reach_cons_of_le hlevel] at hlinks
    rw [reach_append, reach_cons_of_le hlevel] at hnd
    rw [LinkedAt, hh, reach_append]
    refine hlinks.remove hnd ?_ ?_
    · exact (hf _).trans (if_pos ⟨hlevel, rfl⟩)
    · intro p _ hne
      exact (hf p).trans (if_neg fun hp => hne hp.2)
  · have hreach : reach i (l₁ ++ c :: l₂) = reach i (l₁ ++ l₂) := by
      rw [reach_append, reach_cons_of_lt (not_le.mp hlevel), reach_append]
    rw [LinkedAt, hreach] at hlinks
    refine LinkedAt.congr hlinks hh fun p _ => ?_
    rw [hf, if_neg fun hp => hlevel hp.1]

/-- Taking empty levels off leaves a level that all nodes are within. -/
theorem skipLower_eq (hlinks : ∀ i ≤ maxLevel, LinkedAt T L i) (hne : ∀ a ∈ L, a.ptr ≠ 0) :
    ∀ {n : Nat}, n ≤ maxLevel → (∀ a ∈ L, a.level ≤ n) →
      ∃ level', skipLower T n = some level' ∧ level' ≤ n ∧ ∀ a ∈ L, a.level ≤ level'
  | 0, _, hL => ⟨0, rfl, le_refl 0, hL⟩
  | level + 1, hle, hL => by
    have hnext : T.forward T.header (level + 1) = some ((reach (level + 1) L).headD 0) := (hlinks _ hle).next_eq
    cases hreach : reach (level + 1) L with
    | nil =>
      obtain ⟨level', hlow, hlt, hL'⟩ := skipLower_eq hlinks hne (Nat.le_of_succ_le hle) fun a ha => by
        by_contra hlevel
        have hmem : a.ptr ∈ reach (level + 1) L := mem_reach.mpr ⟨a, ha, not_le.mp hlevel, rfl⟩
        rw [hreach] at hmem
        cases hmem
      refine ⟨level', ?_, Nat.le_succ_of_le hlt, hL'⟩
      rw [skipLower, hnext, hreach]
      exact hlow
    | cons p ps =>
      have hp : p ∈ reach (level + 1) L := hreach ▸ List.mem_cons_self
      obtain ⟨a, ha, -, rfl⟩ := mem_reach.mp hp
      refine ⟨level + 1, ?_, le_refl _, hL⟩
      rw [skipLower, hnext, hreach]
      simp [hne a ha]

theorem SkipRep.unlink (h : SkipRep T (l₁ ++ c :: l₂)) :
    ∃ T', skipUnlink (updates T l₁) c.ptr (T.level + 1) 0 T = some T' ∧ SameNodes T T' ∧
      ∀ i ≤ maxLevel, LinkedAt T' (l₁ ++ l₂) i := by
  have hc : c ∈ l₁ ++ c :: l₂ := by simp
  obtain ⟨-, hlevel⟩ := h.levels c hc
  have hmax := h.levelMax
  obtain ⟨T', hT', hsame, hf⟩ := skipUnlink_eq (T := T) (a := c.ptr) (i := 0) (m := c.level + 1) (n := T.level + 1)
    (w := updates T l₁) (u := fun j => lastAt T j l₁) (by omega)
    (fun j _ hj => by
      refine ⟨updates_getElem? (by omega), ?_, _, h.forward_node (by omega) (by omega)⟩
      rw [h.forward_lastAt (by omega), reach_cons_of_le (by omega)]
      rfl)
    (fun hlt => by
      refine ⟨updates_getElem? (by omega), _, h.forward_lastAt (by omega), ?_⟩
      rw [reach_cons_of_lt (by omega)]
      -- the next node on this level comes after `c`
      cases hreach : reach (0 + (c.level + 1)) l₂ with
      | nil => exact (h.live c.ptr (List.mem_cons_of_mem _ (List.mem_map_of_mem hc))).1.symm
      | cons p ps =>
        have hp : p ∈ reach (0 + (c.level + 1)) l₂ := hreach ▸ List.mem_cons_self
        have hnd := (List.nodup_cons.mp h.distinct).2
        rw [List.map_append, List.map_cons, List.nodup_middle, List.nodup_cons] at hnd
        rintro rfl
        exact hnd.1 (List.mem_append_right _ (reach_sublist.subset hp)))
  refine ⟨T', hT', hsame, fun i hi => h.linkedAt_remove hi hsame.header fun p => ?_⟩
  rw [hf]
  have hiff : (0 ≤ i ∧ i < 0 + (c.level + 1)) ↔ i ≤ c.level := by omega
  simp only [← and_assoc, hiff]

theorem forward_update_nodes {p q : Ptr} {x : Option SkipNode} {level : Nat} {size : Int} (hp : p ≠ q) :
    Skiptable.forward { T with level := level, size := size, nodes := Function.update T.nodes q x } p i =
      T.forward p i := by
  simp [Skiptable.forward, hp]

/-- The node of a key is taken out of every level and freed. -/
theorem SkipRep.delete (h : SkipRep T (l₁ ++ c :: l₂)) {key : List UInt8} (hcut : Cut k l₁ (c :: l₂))
    (hr : Reads key k (l₁ ++ c :: l₂)) (hk : c.key = k) :
    ∃ T', kvsSkiptableDelete T key = some (T', 0) ∧ SkipRep T' (l₁ ++ l₂) ∧ T'.size = T.size - 1 := by
  have hc : c ∈ l₁ ++ c :: l₂ := by simp
  obtain ⟨T₁, hT₁, hsame, hlinks⟩ := h.unlink
  have hsub : (l₁ ++ l₂).Sublist (l₁ ++ c :: l₂) := (List.sublist_cons_self c l₂).append_left l₁
  have hptrs : (T.header :: (l₁ ++ l₂).map SkipCell.ptr).Sublist (T.header :: (l₁ ++ c :: l₂).map SkipCell.ptr) :=
    (hsub.map _).cons_cons _
  have hout : ∀ p ∈ T.header :: (l₁ ++ l₂).map SkipCell.ptr, p ≠ c.ptr := by
    have hnd := h.distinct
    rw [List.map_append, List.map_cons, ← List.cons_append, List.nodup_middle, List.nodup_cons, List.cons_append,
      ← List.map_append] at hnd
    rintro p hp rfl
    exact hnd.1 hp
  obtain ⟨level, hlow, hle, hL⟩ := skipLower_eq (T := T₁) (L := l₁ ++ l₂) (n := T.level) hlinks
    (fun a ha => (h.live a.ptr (hptrs.subset (List.mem_cons_of_mem _ (List.mem_map_of_mem ha)))).1) h.levelMax
    fun a ha => (h.levels a (hsub.subset ha)).2
  refine ⟨{ T₁ with level := level, size := T₁.size - 1, nodes := Function.update T₁.nodes c.ptr none }, ?_, ?_, ?_⟩
  · simp only [kvsSkiptableDelete, Option.bind_eq_bind]
    rw [h.find_some hcut hr hk, Option.bind_some]
    simp only
    rw [hT₁, Option.bind_some, hsame.level, hlow, Option.bind_some, hsame.nodes, h.nodes c hc, Option.bind_some]
  · have hheader : T₁.header = T.header := hsame.header
    have hnodes : ∀ p ∈ T.header :: (l₁ ++ l₂).map SkipCell.ptr,
        Function.update T₁.nodes c.ptr none p = T.nodes p := fun p hp => by
      rw [Function.update_of_ne (hout p hp), hsame.nodes]
    refine ⟨?_, ?_, ?_, ?_, ?_, ?_, ?_⟩
    · obtain ⟨n, hn, hslots⟩ := h.header
      refine ⟨n, ?_, hslots⟩
      change Function.update T₁.nodes c.ptr none T₁.header = some n
      rw [hheader, hnodes _ List.mem_cons_self, hn]
    · intro a ha
      exact (hnodes _ (List.mem_cons_of_mem _ (List.mem_map_of_mem ha))).trans (h.nodes a (hsub.subset ha))
    · change (T₁.header :: _).Nodup
      rw [hheader]
      exact h.distinct.sublist hptrs
    · intro p hp
      change p ∈ T₁.header :: _ at hp
      rw [hheader] at hp
      change p ≠ 0 ∧ p < T₁.next
      rw [hsame.next]
      exact h.live p (hptrs.subset hp)
    · exact fun a ha => ⟨(h.levels a (hsub.subset ha)).1, hL a ha⟩
    · exact hle.trans h.levelMax
    · intro i hi
      refine (hlinks i hi).congr rfl fun p hp => forward_update_nodes (hout p ?_)
      rw [hheader] at hp
      exact List.cons_subset_cons _ reach_sublist.subset hp
  · change T₁.size - 1 = _
    rw [hsame.size]

/-! ### Modification -/

theorem SkipRep.modify (h : SkipRep T (l₁ ++ c :: l₂)) {key value : List UInt8} {v : CString} {t : UInt64}
    (hcut : Cut k l₁ (c :: l₂)) (hr : Reads key k (l₁ ++ c :: l₂)) (hk : c.key = k)
    (hval : strncpy255 value = some v) :
    ∃ T', kvsSkiptableModifyWithTimestamp T key value t = some (T', 0) ∧
      SkipRep T' (l₁ ++ { c with value := v, timestamp := t } :: l₂) ∧ T'.size = T.size := by
  have hc : c ∈ l₁ ++ c :: l₂ := by simp
  have hptrs : (l₁ ++ { c with value := v, timestamp := t } :: l₂).map SkipCell.ptr =
      (l₁ ++ c :: l₂).map SkipCell.ptr := by
    simp
  have hreach : ∀ i, reach i (l₁ ++ { c with value := v, timestamp := t } :: l₂) = reach i (l₁ ++ c :: l₂) := by
    intro i
    by_cases hi : i ≤ c.level
    · rw [reach_append, reach_append, reach_cons_of_le hi]
      exact congrArg _ (reach_cons_of_le hi)
    · rw [reach_append, reach_append, reach_cons_of_lt (not_le.mp hi)]
      exact congrArg _ (reach_cons_of_lt (not_le.mp hi))
  have hnd := h.distinct
  rw [List.map_append, List.map_cons, ← List.cons_append, List.nodup_middle, List.nodup_cons] at hnd
  have hother : ∀ a ∈ l₁ ++ l₂, a.ptr ≠ c.ptr := by
    intro a ha heq
    refine hnd.1 (heq ▸ ?_)
    rw [List.cons_append, ← List.map_append]
    exact List.mem_cons_of_mem _ (List.mem_map_of_mem ha)
  have hheader : T.header ≠ c.ptr := fun heq => hnd.1 (heq ▸ List.mem_cons_self)
  refine ⟨{ T with nodes := Function.update T.nodes c.ptr (some { c.node with value := v, timestamp := some t }) }, ?_,
    ⟨?_, ?_, ?_, ?_, ?_, h.levelMax, ?_⟩, rfl⟩
  · simp only [kvsSkiptableModifyWithTimestamp, Option.bind_eq_bind]
    rw [h.find_some hcut hr hk, Option.bind_some]
    simp only
    rw [h.nodes c hc, Option.bind_some, hval, Option.bind_some]
  · obtain ⟨n, hn, hslots⟩ := h.header
    exact ⟨n, (Function.update_of_ne hheader ..).trans hn, hslots⟩
  · intro a ha
    simp only [List.mem_append, List.mem_cons] at ha
    rcases ha with ha | rfl | ha
    · exact (Function.update_of_ne (hother a (by simp [ha])) ..).trans (h.nodes a (by simp [ha]))
    · exact Function.update_self ..
    · exact (Function.update_of_ne (hother a (by simp [ha])) ..).trans (h.nodes a (by simp [ha]))
  · rw [hptrs]
    exact h.distinct
  · rw [hptrs]
    exact h.live
  · intro a ha
    simp only [List.mem_append, List.mem_cons] at ha
    rcases ha with ha | rfl | ha
    · exact h.levels a (by simp [ha])
    · exact h.levels c hc
    · exact h.levels a (by simp [ha])
  · intro i hi
    have hlinks := h.linked i hi
    unfold LinkedAt at hlinks ⊢
    rw [hreach]
    refine hlinks.congr fun p _ => ?_
    by_cases hp : p = c.ptr
    · subst hp
      simp [Skiptable.forward, h.nodes c hc, SkipCell.node]
    · simp [Skiptable.forward, hp]

end Levels

end KvStore
