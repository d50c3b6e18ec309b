import KvStore.MapSpec
import KvStore.Theorems.SkiptableUpdate

/-! The calls of the skip list engine keep its levels in order, and on strings that fit into a node they do what
    the map machine does. -/

namespace KvStore
open FiniteMap

/-- The memory holds the nodes `L`, in the order of their keys. Two nodes may have the same key, since longer
    keys are cut when they are stored. -/
structure SkipInv (T : Skiptable) (L : List SkipCell) : Prop where
  rep : SkipRep T L
  sorted : L.Pairwise fun c d => c.key ≤ d.key
  size : T.size = L.length
  short : ∀ c ∈ L, c.key.strlen ≤ 255 ∧ c.value.strlen ≤ 255

/-- The store holds the map `m`: its nodes are the entries of `m`, each once. -/
def SkipHolds (T : Skiptable) (m : Map CString Entry) : Prop :=
  ∃ L, SkipInv T L ∧ Lists (L.map SkipCell.entry) (m.mapVal Entry.stored)

/-- The string fits into the array of a node. -/
def Short (s : CString) : Prop := s.strlen ≤ 255

def skipAnswers : Answers where
  full _ := none
  modifyAbsent _ := -1
  deleteAbsent := -1
  existAbsent := -1

theorem strncpy255_buf (s : CString) : strncpy255 s.buf = some s.trunc := by
  have h := strncpyBytes_buf (n := 255) s.noNul []
  rw [strncpy255, CString.buf, h, Option.map_some]
  exact congrArg some (CString.ofBytes_bytes s.trunc)

theorem reads_buf (k : CString) (L : List SkipCell) : Reads k.buf k L := fun c _ => strcmpBuf_buf c.key k

section Sorted
variable {T : Skiptable} {L l₁ l₂ : List SkipCell} {c : SkipCell} {k v : CString} {env : Env} {t : UInt64}

/-- The nodes before a key, then one that has it or none. -/
theorem cut_cases (h : L.Pairwise fun c d => c.key ≤ d.key) (k : CString) :
    (∃ l₁ l₂, L = l₁ ++ l₂ ∧ Cut k l₁ l₂ ∧ ∀ c ∈ l₂, c.key ≠ k) ∨
    ∃ l₁ c l₂, L = l₁ ++ c :: l₂ ∧ Cut k l₁ (c :: l₂) ∧ c.key = k := by
  induction L with
  | nil => exact Or.inl ⟨[], [], rfl, ⟨by simp, by simp⟩, by simp⟩
  | cons c L ih =>
    obtain ⟨hc, hL⟩ := List.pairwise_cons.mp h
    rcases lt_trichotomy c.key k with hlt | heq | hgt
    · have hcons : ∀ {l₁ l₂}, Cut k l₁ l₂ → Cut k (c :: l₁) l₂ := fun hcut =>
        ⟨by simpa [hlt] using hcut.1, hcut.2⟩
      rcases ih hL with ⟨l₁, l₂, rfl, hcut, hk⟩ | ⟨l₁, d, l₂, rfl, hcut, hk⟩
      · exact Or.inl ⟨c :: l₁, l₂, rfl, hcons hcut, hk⟩
      · exact Or.inr ⟨c :: l₁, d, l₂, rfl, hcons hcut, hk⟩
    · subst heq
      exact Or.inr ⟨[], c, L, rfl, ⟨by simp, by simpa using hc⟩, rfl⟩
    · have hall : ∀ d ∈ c :: L, k < d.key := by
        intro d hd
        rcases List.mem_cons.mp hd with rfl | hd
        · exact hgt
        · exact hgt.trans_le (hc d hd)
      exact Or.inl ⟨[], c :: L, rfl, ⟨by simp, fun d hd => (hall d hd).le⟩, fun d hd => (hall d hd).ne'⟩

theorem Cut.absent (h : Cut k l₁ l₂) (hk : ∀ c ∈ l₂, c.key ≠ k) : ∀ c ∈ l₁ ++ l₂, c.key ≠ k := by
  intro c hc
  rcases List.mem_append.mp hc with hc | hc
  · exact (h.1 c hc).ne
  · exact hk c hc

/-- A node for a key and a value that `strncpy` could copy. -/
theorem SkipInv.insert_read {key value : List UInt8} {v' : CString} (h : SkipInv T (l₁ ++ l₂)) (hcut : Cut k l₁ l₂)
    (hr : Reads key k (l₁ ++ l₂)) (hk : ∀ c ∈ l₂, c.key ≠ k) (henv : env.Allocates)
    (hkey : strncpy255 key = some k.trunc) (hval : strncpy255 value = some v') (hv : v'.strlen ≤ 255) :
    ∃ T', kvsSkiptableSetWithTimestamp env T key value t = some (T', 0) ∧
      SkipInv T' (l₁ ++ ⟨T.next, k.trunc, v', t, randomLevel env⟩ :: l₂) := by
  obtain ⟨T', hT', hrep, hsize⟩ := h.rep.insert (t := t) hcut hr hk henv hkey hval
  obtain ⟨hs₁, hs₂, hs₁₂⟩ := List.pairwise_append.mp h.sorted
  refine ⟨T', hT', hrep, ?_, ?_, ?_⟩
  · refine List.pairwise_append.mpr ⟨hs₁, List.pairwise_cons.mpr ⟨?_, hs₂⟩, ?_⟩
    · exact fun d hd => (CString.trunc_le k).trans (hcut.2 d hd)
    · intro c hc d hd
      rcases List.mem_cons.mp hd with rfl | hd
      · exact CString.le_trunc (h.short c (List.mem_append_left l₂ hc)).1 (hcut.1 c hc)
      · exact hs₁₂ c hc d hd
  · rw [hsize, h.size]
    simp only [List.length_append, List.length_cons, Nat.cast_add, Nat.cast_one]
    omega
  · intro c hc
    simp only [List.mem_append, List.mem_cons] at hc
    rcases hc with hc | rfl | hc
    · exact h.short c (List.mem_append_left l₂ hc)
    · exact ⟨k.strlen_trunc, hv⟩
    · exact h.short c (List.mem_append_right l₁ hc)

theorem SkipInv.insert (h : SkipInv T (l₁ ++ l₂)) (hcut : Cut k l₁ l₂) (hk : ∀ c ∈ l₂, c.key ≠ k)
    (henv : env.Allocates) : ∃ T', kvsSkiptableSetWithTimestamp env T k.buf v.buf t = some (T', 0) ∧
      SkipInv T' (l₁ ++ ⟨T.next, k.trunc, v.trunc, t, randomLevel env⟩ :: l₂) :=
  h.insert_read hcut (reads_buf k _) hk henv (strncpy255_buf k) (strncpy255_buf v) v.strlen_trunc

theorem SkipInv.delete (h : SkipInv T (l₁ ++ c :: l₂)) (hcut : Cut k l₁ (c :: l₂)) (hk : c.key = k) :
    ∃ T', kvsSkiptableDelete T k.buf = some (T', 0) ∧ SkipInv T' (l₁ ++ l₂) := by
  obtain ⟨T', hT', hrep, hsize⟩ := h.rep.delete hcut (reads_buf k _) hk
  have hsub : (l₁ ++ l₂).Sublist (l₁ ++ c :: l₂) := (List.sublist_cons_self c l₂).append_left l₁
  refine ⟨T', hT', hrep, h.sorted.sublist hsub, ?_, fun a ha => h.short a (hsub.subset ha)⟩
  rw [hsize, h.size]
  simp only [List.length_append, List.length_cons, Nat.cast_add, Nat.cast_one]
  omega

theorem SkipInv.modify (h : SkipInv T (l₁ ++ c :: l₂)) (hcut : Cut k l₁ (c :: l₂)) (hk : c.key = k) :
    ∃ T', kvsSkiptableModifyWithTimestamp T k.buf v.buf t = some (T', 0) ∧
      SkipInv T' (l₁ ++ { c with value := v.trunc, timestamp := t } :: l₂) := by
  obtain ⟨T', hT', hrep, hsize⟩ := h.rep.modify (t := t) hcut (reads_buf k _) hk (strncpy255_buf v)
  refine ⟨T', hT', hrep, ?_, ?_, ?_⟩
  · have hs := h.sorted
    rw [← List.pairwise_map, List.map_append, List.map_cons] at hs ⊢
    exact hs
  · rw [hsize, h.size]
    simp
  · intro a ha
    simp only [List.mem_append, List.mem_cons] at ha
    rcases ha with ha | rfl | ha
    · exact h.short a (by simp [ha])
    · exact ⟨(h.short c (by simp)).1, v.strlen_trunc⟩
    · exact h.short a (by simp [ha])

/-- What a search finds: no node with the key, or the first one. -/
theorem SkipInv.find (h : SkipInv T L) (k : CString) :
    (∃ l₁ l₂, L = l₁ ++ l₂ ∧ Cut k l₁ l₂ ∧ (∀ c ∈ l₂, c.key ≠ k) ∧ skipFind T k.buf = some (none, updates T l₁)) ∨
    ∃ l₁ c l₂, L = l₁ ++ c :: l₂ ∧ Cut k l₁ (c :: l₂) ∧ c.key = k ∧
      skipFind T k.buf = some (some c.ptr, updates T l₁) ∧ T.nodes c.ptr = some c.node := by
  rcases cut_cases h.sorted k with ⟨l₁, l₂, rfl, hcut, hk⟩ | ⟨l₁, c, l₂, rfl, hcut, hk⟩
  · exact Or.inl ⟨l₁, l₂, rfl, hcut, hk, h.rep.find_none hcut (reads_buf k _) hk⟩
  · exact Or.inr ⟨l₁, c, l₂, rfl, hcut, hk, h.rep.find_some hcut (reads_buf k _) hk, h.rep.nodes c (by simp)⟩

theorem SkipInv.get (h : SkipInv T L) (k : CString) : ∃ p, kvsSkiptableGet T k.buf = some p := by
  rcases h.find k with ⟨l₁, l₂, -, -, -, hf⟩ | ⟨l₁, c, l₂, -, -, -, hf, hn⟩
  · exact ⟨.null, by simp [kvsSkiptableGet, hf]⟩
  · exact ⟨.str c.value, by simp [kvsSkiptableGet, hf, hn, SkipCell.node]⟩

/-! ### Calls with any strings and any outcome of the allocations -/

theorem randomLevelLoop_congr {e : Env} (h : env.rand = e.rand) (n level : Nat) :
    randomLevelLoop env n level = randomLevelLoop e n level := by
  induction n generalizing level with
  | zero => rfl
  | succ n ih => simp only [randomLevelLoop, h, ih]

/-- Only the first two allocations of the call are looked at. -/
theorem set_all_allocs {key value : List UInt8} (h₀ : env.alloc 0 = true) (h₁ : env.alloc 1 = true) :
    kvsSkiptableSetWithTimestamp env T key value t =
      kvsSkiptableSetWithTimestamp { env with alloc := fun _ => true } T key value t := by
  have hlevel : randomLevel env = randomLevel { env with alloc := fun _ => true } := randomLevelLoop_congr rfl _ _
  simp only [kvsSkiptableSetWithTimestamp, createSkipNode, h₀, h₁, hlevel]

theorem SkipInv.set (h : SkipInv T L) (env : Env) (k v : CString) (t : UInt64) :
    ∃ T' n L', kvsSkiptableSetWithTimestamp env T k.buf v.buf t = some (T', n) ∧ SkipInv T' L' := by
  rcases h.find k with ⟨l₁, l₂, rfl, hcut, hk, hf⟩ | ⟨l₁, c, l₂, rfl, -, -, hf, -⟩
  · cases h₀ : env.alloc 0 with
    | false => exact ⟨T, -1, _, by simp [kvsSkiptableSetWithTimestamp, hf, createSkipNode, h₀], h⟩
    | true =>
      cases h₁ : env.alloc 1 with
      | false =>
        refine ⟨T, -1, _, ?_, h⟩
        simp [kvsSkiptableSetWithTimestamp, hf, createSkipNode, h₀, h₁, strncpy255_buf]
      | true =>
        have hall : Env.Allocates { env with alloc := fun _ => true } := fun _ => rfl
        obtain ⟨T', hT', h'⟩ := h.insert (v := v) (t := t) hcut hk hall
        exact ⟨T', 0, _, (set_all_allocs h₀ h₁).trans hT', h'⟩
  · exact ⟨T, 1, _, by simp [kvsSkiptableSetWithTimestamp, hf], h⟩

theorem SkipInv.modify_any (h : SkipInv T L) (k v : CString) (t : UInt64) :
    ∃ T' n L', kvsSkiptableModifyWithTimestamp T k.buf v.buf t = some (T', n) ∧ SkipInv T' L' := by
  rcases h.find k with ⟨l₁, l₂, rfl, -, -, hf⟩ | ⟨l₁, c, l₂, rfl, hcut, hk, -⟩
  · exact ⟨T, -1, _, by simp [kvsSkiptableModifyWithTimestamp, hf], h⟩
  · obtain ⟨T', hT', h'⟩ := h.modify (v := v) (t := t) hcut hk
    exact ⟨T', 0, _, hT', h'⟩

/-- Whatever its strings and its surroundings are, a call returns and keeps the list in order. -/
theorem SkipInv.exec (h : SkipInv T L) (c : Call) :
    ∃ T' r L', skiptableEngine.exec T c = some (T', r) ∧ SkipInv T' L' := by
  cases c with
  | set env k v =>
    obtain ⟨T', n, L', hs, h'⟩ := h.set env k v env.now
    exact ⟨T', .code n, L', by simp [Engine.exec, skiptableEngine, kvsSkiptableSet, hs], h'⟩
  | setWithTimestamp env k v t =>
    obtain ⟨T', n, L', hs, h'⟩ := h.set env k v t
    exact ⟨T', .code n, L', by simp [Engine.exec, skiptableEngine, hs], h'⟩
  | modify env k v =>
    obtain ⟨T', n, L', hs, h'⟩ := h.modify_any k v env.now
    exact ⟨T', .code n, L', by simp [Engine.exec, skiptableEngine, kvsSkiptableModify, hs], h'⟩
  | modifyWithTimestamp env k v t =>
    obtain ⟨T', n, L', hs, h'⟩ := h.modify_any k v t
    exact ⟨T', .code n, L', by simp [Engine.exec, skiptableEngine, hs], h'⟩
  | delete k =>
    rcases h.find k with ⟨l₁, l₂, rfl, -, -, hf⟩ | ⟨l₁, c, l₂, rfl, hcut, hk, -⟩
    · exact ⟨T, .code (-1), _, by simp [Engine.exec, skiptableEngine, kvsSkiptableDelete, hf], h⟩
    · obtain ⟨T', hT', h'⟩ := h.delete hcut hk
      exact ⟨T', .code 0, _, by simp [Engine.exec, skiptableEngine, hT'], h'⟩
  | get k =>
    obtain ⟨p, hp⟩ := h.get k
    exact ⟨T, .ptr p, L, by simp [Engine.exec, skiptableEngine, hp], h⟩
  | exist k =>
    obtain ⟨p, hp⟩ := h.get k
    refine ⟨T, .code (if p = .null then -1 else 0), L, ?_, h⟩
    simp only [Engine.exec, skiptableEngine, kvsSkiptableExist, hp, Option.bind_eq_bind, Option.bind_some]
    split <;> rfl
  | count => exact ⟨T, .code T.size, L, rfl, h⟩

theorem SkipInv.runs (h : SkipInv T L) (calls : List Call) :
    ∃ T' outs L', Run.runs skiptableEngine.exec T calls = some (T', outs) ∧ SkipInv T' L' := by
  induction calls generalizing T L with
  | nil => exact ⟨T, [], L, rfl, h⟩
  | cons c calls ih =>
    obtain ⟨T₁, r, L₁, hs, h₁⟩ := h.exec c
    obtain ⟨T', outs, L', hrun, h'⟩ := ih h₁
    exact ⟨T', _, L', Run.runs_cons hs hrun, h'⟩

theorem skipCreate_inv : SkipInv kvsSkiptableCreate [] where
  rep := {
    header := ⟨_, rfl, rfl⟩
    nodes := by simp
    distinct := by simp
    live := by simp [kvsSkiptableCreate]
    levels := by simp
    levelMax := Nat.zero_le _
    linked := by
      intro i hi
      have hlt : i < maxLevel + 1 := Nat.lt_succ_of_le hi
      simp [LinkedAt, reach, LinkedList.Links, Skiptable.forward, kvsSkiptableCreate, hlt] }
  sorted := List.Pairwise.nil
  size := rfl
  short := by simp

end Sorted

section Calls
variable {T : Skiptable} {m : Map CString Entry} {k v : CString} {e : Entry} {env : Env} {t : UInt64}

/-- The entry of a node is that of its key in the map. -/
theorem skip_entry {l₁ l₂ : List SkipCell} {c : SkipCell}
    (hl : Lists ((l₁ ++ c :: l₂).map SkipCell.entry) (m.mapVal Entry.stored)) :
    ∃ a, m c.key = some a ∧ c.value = a.value ∧ c.timestamp = a.timestamp := by
  rw [List.map_append, List.map_cons] at hl
  have ha := hl.apply_middle
  simp only [Map.mapVal_apply, Option.map_eq_some_iff] at ha
  obtain ⟨a, ha, hs⟩ := ha
  obtain ⟨hv, ht⟩ := Prod.mk.inj hs
  exact ⟨a, ha, (CharPtr.str.inj hv).symm, ht.symm⟩

/-- A key of the map finds its node. -/
theorem SkipHolds.find_present (h : SkipHolds T m) (hm : m k = some e) :
    ∃ l₁ c l₂, SkipInv T (l₁ ++ c :: l₂) ∧ Lists ((l₁ ++ c :: l₂).map SkipCell.entry) (m.mapVal Entry.stored) ∧
      Cut k l₁ (c :: l₂) ∧ c.key = k ∧ c.value = e.value ∧ c.timestamp = e.timestamp ∧
      skipFind T k.buf = some (some c.ptr, updates T l₁) ∧ T.nodes c.ptr = some c.node := by
  obtain ⟨L, hi, hl⟩ := h
  rcases hi.find k with ⟨l₁, l₂, rfl, hcut, hk, -⟩ | ⟨l₁, c, l₂, rfl, hcut, rfl, hf, hn⟩
  · have hmem : (k, e.stored) ∈ (l₁ ++ l₂).map SkipCell.entry := (hl.mem k e.stored).mpr (by simp [hm])
    obtain ⟨c, hc, heq⟩ := List.mem_map.mp hmem
    exact absurd (congrArg Prod.fst heq) (hcut.absent hk c hc)
  · obtain ⟨a, ha, hv, ht⟩ := skip_entry hl
    rw [hm, Option.some.injEq] at ha
    subst ha
    exact ⟨l₁, c, l₂, hi, hl, hcut, rfl, hv, ht, hf, hn⟩

/-- For another key it finds the place where its node would be. -/
theorem SkipHolds.find_absent (h : SkipHolds T m) (hm : m k = none) :
    ∃ l₁ l₂, SkipInv T (l₁ ++ l₂) ∧ Lists ((l₁ ++ l₂).map SkipCell.entry) (m.mapVal Entry.stored) ∧
      Cut k l₁ l₂ ∧ (∀ c ∈ l₂, c.key ≠ k) ∧ skipFind T k.buf = some (none, updates T l₁) := by
  obtain ⟨L, hi, hl⟩ := h
  rcases hi.find k with ⟨l₁, l₂, rfl, hcut, hk, hf⟩ | ⟨l₁, c, l₂, rfl, -, rfl, -⟩
  · exact ⟨l₁, l₂, hi, hl, hcut, hk, hf⟩
  · obtain ⟨a, ha, -⟩ := skip_entry hl
    rw [hm] at ha
    cases ha

theorem skipCreate_holds : SkipHolds kvsSkiptableCreate Map.empty := ⟨[], skipCreate_inv, Lists.nil⟩

theorem SkipHolds.get_present (h : SkipHolds T m) (hm : m k = some e) :
    kvsSkiptableGet T k.buf = some (.str e.value) := by
  obtain ⟨l₁, c, l₂, -, -, -, -, hv, -, hf, hnode⟩ := h.find_present hm
  simp [kvsSkiptableGet, hf, hnode, SkipCell.node, hv]

theorem SkipHolds.get_absent (h : SkipHolds T m) (hm : m k = none) : kvsSkiptableGet T k.buf = some .null := by
  obtain ⟨l₁, l₂, -, -, -, -, hf⟩ := h.find_absent hm
  simp [kvsSkiptableGet, hf]

theorem SkipHolds.getTimestamp (h : SkipHolds T m) (hm : m k = some e) :
    kvsSkiptableGetTimestamp T k.buf = some e.timestamp := by
  obtain ⟨l₁, c, l₂, -, -, -, -, -, ht, hf, hnode⟩ := h.find_present hm
  simp [kvsSkiptableGetTimestamp, hf, hnode, SkipCell.node, ht]

theorem SkipHolds.set_present (h : SkipHolds T m) (hm : m k = some e) :
    kvsSkiptableSetWithTimestamp env T k.buf v.buf t = some (T, 1) := by
  obtain ⟨l₁, c, l₂, -, -, -, -, -, -, hf, -⟩ := h.find_present hm
  simp [kvsSkiptableSetWithTimestamp, hf]

theorem SkipHolds.set_absent (h : SkipHolds T m) (hk : Short k) (hv : Short v) (henv : env.Allocates)
    (hm : m k = none) :
    ∃ T', kvsSkiptableSetWithTimestamp env T k.buf v.buf t = some (T', 0) ∧ SkipHolds T' (m.insert k ⟨v, t⟩) := by
  obtain ⟨l₁, l₂, hi, hl, hcut, hne, -⟩ := h.find_absent hm
  obtain ⟨T', hT', hi'⟩ := hi.insert (v := v) (t := t) hcut hne henv
  rw [CString.trunc_of_le hk, CString.trunc_of_le hv] at hi'
  refine ⟨T', hT', _, hi', ?_⟩
  rw [List.map_append] at hl
  rw [List.map_append, List.map_cons, Map.mapVal_insert]
  exact hl.insert (by simp [hm])

theorem SkipHolds.modify_present (h : SkipHolds T m) (hv : Short v) (hm : m k = some e) :
    ∃ T', kvsSkiptableModifyWithTimestamp T k.buf v.buf t = some (T', 0) ∧ SkipHolds T' (m.insert k ⟨v, t⟩) := by
  obtain ⟨l₁, c, l₂, hi, hl, hcut, rfl, -⟩ := h.find_present hm
  obtain ⟨T', hT', hi'⟩ := hi.modify (v := v) (t := t) hcut rfl
  rw [CString.trunc_of_le hv] at hi'
  refine ⟨T', hT', _, hi', ?_⟩
  rw [List.map_append, List.map_cons] at hl
  rw [List.map_append, List.map_cons, Map.mapVal_insert]
  exact hl.update

theorem SkipHolds.modify_absent (h : SkipHolds T m) (hm : m k = none) :
    kvsSkiptableModifyWithTimestamp T k.buf v.buf t = some (T, -1) := by
  obtain ⟨l₁, l₂, -, -, -, -, hf⟩ := h.find_absent hm
  simp [kvsSkiptableModifyWithTimestamp, hf]

theorem SkipHolds.delete_present (h : SkipHolds T m) (hm : m k = some e) :
    ∃ T', kvsSkiptableDelete T k.buf = some (T', 0) ∧ SkipHolds T' (m.erase k) := by
  obtain ⟨l₁, c, l₂, hi, hl, hcut, rfl, -⟩ := h.find_present hm
  obtain ⟨T', hT', hi'⟩ := hi.delete hcut rfl
  refine ⟨T', hT', _, hi', ?_⟩
  rw [List.map_append, List.map_cons] at hl
  rw [List.map_append, Map.mapVal_erase]
  exact hl.erase

theorem SkipHolds.delete_absent (h : SkipHolds T m) (hm : m k = none) : kvsSkiptableDelete T k.buf = some (T, -1) := by
  obtain ⟨l₁, l₂, -, -, -, -, hf⟩ := h.find_absent hm
  simp [kvsSkiptableDelete, hf]

theorem SkipHolds.count (h : SkipHolds T m) : kvsSkiptableCount T = some (m.size : Int) := by
  obtain ⟨L, hi, hl⟩ := h
  rw [kvsSkiptableCount, hi.size, ← Map.size_mapVal Entry.stored, hl.size, List.length_map]

end Calls

/-! ### The engine -/

theorem skipLaws : skiptableEngine.Laws skipAnswers SkipHolds Short Short where
  set_eq _ _ _ _ := rfl
  modify_eq _ _ _ _ := rfl
  set_full _ _ _ h := by cases h
  set_present h _ _ _ hm := h.set_present hm
  set_absent h hk hv henv _ hm := h.set_absent hk hv henv hm
  modify_present h _ hv _ hm := h.modify_present hv hm
  modify_absent h _ _ hm := h.modify_absent hm
  get_present h _ hm := h.get_present hm
  get_absent h _ hm := h.get_absent hm
  exist_present h _ hm := by simp [skiptableEngine, kvsSkiptableExist, h.get_present hm]
  exist_absent h _ hm := by simp [skiptableEngine, kvsSkiptableExist, h.get_absent hm, skipAnswers]
  count h := h.count
  getTimestamp h _ hm := h.getTimestamp hm

theorem skipDeleteLaws : skiptableEngine.DeleteLaws skipAnswers View.entries SkipHolds Short where
  present {T m k e} h _ hm := by
    obtain ⟨T', hs, h'⟩ := h.delete_present hm
    exact ⟨T', m.erase k, hs, h', by simp [View.entries]⟩
  absent h _ hm := h.delete_absent hm

theorem skip_simulates : Run.Simulates skiptableEngine.exec (MapSpec.step skipAnswers View.entries)
    (Engine.Shows SkipHolds View.entries) (Call.Ok Short Short) := skipLaws.simulates skipDeleteLaws

end KvStore
