import KvStore.Theorems.FailedModify
import KvStore.Theorems.RbtreeFrame

/-! What a `set` that returns does to the reads of a store, whatever its allocations come to, and whatever failures the
    store has gone through before. -/

namespace KvStore
open RedBlack

section Reads
variable {σ : Type} (E : Engine σ)

/-- `exist` finds the key. -/
def Engine.Present (s : σ) (k : CString) : Prop := E.exist s k = some 0

/-- The reads of the key give the same in both stores. Only a key that is present has a timestamp. -/
structure Engine.SameAt (s s' : σ) (k : CString) : Prop where
  get : E.get s' k = E.get s k
  exist : E.exist s' k = E.exist s k
  timestamp : E.Present s k → E.getTimestamp s' k = E.getTimestamp s k

variable {E} {s s₁ s' : σ} {k : CString}

theorem Engine.SameAt.refl : E.SameAt s s k := ⟨rfl, rfl, fun _ => rfl⟩

theorem Engine.SameAt.present_iff (h : E.SameAt s s' k) : E.Present s' k ↔ E.Present s k := by
  rw [Engine.Present, h.exist, Engine.Present]

theorem Engine.SameAt.trans (h : E.SameAt s s₁ k) (h' : E.SameAt s₁ s' k) : E.SameAt s s' k where
  get := h'.get.trans h.get
  exist := h'.exist.trans h.exist
  timestamp hk := (h'.timestamp (h.present_iff.mpr hk)).trans (h.timestamp hk)

end Reads

/-- What can stand in the way of a `set`: a key that the engine cannot take, an item that has the key but no value, an
    allocation that fails, and the size of the table. -/
structure Limits (σ : Type) where
  key : CString → Prop
  Stranded : σ → CString → Prop
  Allocates : Env → Prop
  Room : Int → Prop

section Laws
variable {σ : Type} (E : Engine σ) (L : Limits σ)

/-- What a `set` of `k` has made of the store `s`. -/
inductive Engine.AddOutcome (env : Env) (s s' : σ) (k v : CString) : Prop where
  | kept (same : ∀ j, E.SameAt s s' j) (stranded : ∀ j, L.Stranded s' j ↔ L.Stranded s j)
      (count : E.count s' = E.count s)
      (why : E.Present s k ∨ ¬L.Allocates env ∨ ∀ n, E.count s = some n → ¬L.Room (n + 1))
  | buried (found : L.Stranded s k) (same : ∀ j, E.SameAt s s' j) (stranded : ∀ j, L.Stranded s' j ↔ L.Stranded s j)
  | added (absent : ¬E.Present s k) (notStranded : ¬L.Stranded s k) (allocates : L.Allocates env)
      (count : ∃ n, E.count s = some n ∧ E.count s' = some (n + 1)) (get : E.get s' k = some (.str v))
      (exist : E.exist s' k = some 0) (timestamp : E.getTimestamp s' k = some env.now)
      (others : ∀ j, j ≠ k → E.SameAt s s' j ∧ (L.Stranded s' j ↔ L.Stranded s j))

/-- What `set` does to a store that satisfies `I`. -/
structure Engine.Adds (I : σ → Prop) : Prop where
  keeps : ∀ {env s k v s' n}, I s → E.set env s k v = some (s', n) → I s'
  count : ∀ {s}, I s → ∃ n, E.count s = some n ∧ L.Room n
  room_mono : ∀ {m n}, m ≤ n → L.Room n → L.Room m
  allocates : ∀ {env : Env}, env.Allocates → L.Allocates env
  stranded : ∀ {s k}, I s → L.Stranded s k → ¬E.Present s k
  absent : ∀ {s k}, I s → ¬E.Present s k → ∀ v, E.get s k ≠ some (.str v)
  set : ∀ {env s k v s' n}, I s → E.set env s k v = some (s', n) → E.AddOutcome L env s s' k v
  returns : ∀ {env s k}, I s → L.key k → L.Allocates env → ∀ v, ∃ r, E.set env s k v = some r

end Laws

/-! ### The array -/

/-- An item of the table has the key, and `get` shows no value for it. -/
def ArrayStranded (T : KvArray) (k : CString) : Prop := kvsArrayFindIndex T k ≠ some none ∧ kvsArrayGet T k = some .null

def arrayLimits : Limits KvArray where
  key := AnyString
  Stranded := ArrayStranded
  Allocates env := env.alloc 0 = true ∧ env.alloc 1 = true
  Room n := n ≤ kvsArraySize

section Array
variable {T T' : KvArray} {es : List (CString × CharPtr × UInt64)} {k v : CString} {env : Env} {t : UInt64} {n : Int}

/-- What the reads of a key give is in its first item. -/
theorem KvArray.Stores.reads (h : T.Stores es) (k : CString) :
    (es.lookup k = none ∧ kvsArrayFindIndex T k = some none ∧ kvsArrayGet T k = some .null) ∨
    ∃ i a, es.lookup k = some a ∧ kvsArrayFindIndex T k = some (some i) ∧ kvsArrayGet T k = some a.1 ∧
      kvsArrayGetTimestamp T k = some a.2 := by
  rcases h.first k with ⟨hk, hf⟩ | ⟨l₁, a, l₂, rfl, hk, hf, hitem⟩
  · refine Or.inl ⟨List.lookup_eq_none_iff.mpr fun e he => ?_, hf, ?_⟩
    · have hne : k ≠ e.1 := fun hke => hk (List.mem_map.mpr ⟨e, he, hke.symm⟩)
      simpa using hne
    · simp [kvsArrayGet, hf]
  · refine Or.inr ⟨l₁.length, a, ?_, hf, h.get_first hk, ?_⟩
    · have hnone : l₁.lookup k = none := List.lookup_eq_none_iff.mpr fun e he => by
        have hne : k ≠ e.1 := fun hke => hk (List.mem_map.mpr ⟨e, he, hke.symm⟩)
        simpa using hne
      rw [List.lookup_append, hnone, Option.none_or, List.lookup_cons_self]
    · simp [kvsArrayGetTimestamp, hf, hitem, arrayItem]

theorem kvsArrayExist_of_get {p : CharPtr} (h : kvsArrayGet T k = some p) :
    kvsArrayExist T k = some (if p = .null then -1 else 0) := by
  rw [kvsArrayExist, h, Option.bind_eq_bind, Option.bind_some]
  split <;> rfl

theorem KvArray.Stores.sameAt {es' : List (CString × CharPtr × UInt64)} (h : T.Stores es) (h' : T'.Stores es')
    (heq : es'.lookup k = es.lookup k) :
    arrayEngine.SameAt T T' k ∧ (ArrayStranded T' k ↔ ArrayStranded T k) := by
  rcases h.reads k with ⟨hl, hf, hg⟩ | ⟨i, a, hl, hf, hg, ht⟩ <;>
    rcases h'.reads k with ⟨hl', hf', hg'⟩ | ⟨i', a', hl', hf', hg', ht'⟩
  · refine ⟨⟨hg'.trans hg.symm, (kvsArrayExist_of_get hg').trans (kvsArrayExist_of_get hg).symm, fun hk => ?_⟩, ?_⟩
    · have hne := (kvsArrayExist_of_get hg).symm.trans hk
      cases hne
    · simp [ArrayStranded, hf, hf']
  · rw [heq, hl] at hl'
    cases hl'
  · rw [heq, hl] at hl'
    cases hl'
  · rw [heq, hl, Option.some.injEq] at hl'
    subst hl'
    refine ⟨⟨hg'.trans hg.symm, (kvsArrayExist_of_get hg').trans (kvsArrayExist_of_get hg).symm, fun _ => ?_⟩, ?_⟩
    · exact ht'.trans ht.symm
    · simp [ArrayStranded, hf, hf', hg, hg']

/-- Why a `set` has not put an item into the table. -/
theorem kvsArraySet_code (h : kvsArraySetWithTimestamp env T k v t = some (T', n)) :
    (n ≠ 0 → kvsArraySize ≤ T.total ∨ (∃ p, kvsArrayGet T k = some p ∧ p ≠ .null) ∨ ¬arrayLimits.Allocates env) ∧
    (n = 0 → T.total < kvsArraySize ∧ arrayLimits.Allocates env) := by
  rw [kvsArraySetWithTimestamp] at h
  split at h
  · next hfull =>
    cases h
    exact ⟨fun _ => Or.inl hfull, fun h0 => absurd h0 (by decide)⟩
  next hroom =>
    obtain ⟨p, hget, h⟩ := Option.bind_eq_some_iff.mp h
    split at h
    · next hp =>
      cases h
      exact ⟨fun _ => Or.inr (Or.inl ⟨p, hget, hp⟩), fun h0 => absurd h0 (by decide)⟩
    split at h
    · next h₀ =>
      cases h
      exact ⟨fun _ => Or.inr (Or.inr fun ha => by simp [ha.1] at h₀), fun h0 => absurd h0 (by decide)⟩
    split at h
    · next h₁ =>
      cases h
      exact ⟨fun _ => Or.inr (Or.inr fun ha => by simp [ha.2] at h₁), fun h0 => absurd h0 (by decide)⟩
    · next h₀ h₁ =>
      have hdone : T.total < kvsArraySize ∧ arrayLimits.Allocates env :=
        ⟨Nat.lt_of_not_le hroom, by simpa using h₀, by simpa using h₁⟩
      refine ⟨fun hn => ?_, fun _ => hdone⟩
      obtain ⟨hole, -, h⟩ := Option.bind_eq_some_iff.mp h
      cases hole with
      | some i =>
        obtain ⟨T₁, -, h⟩ := Option.bind_eq_some_iff.mp h
        cases h
        exact absurd rfl hn
      | none =>
        simp only at h
        split at h
        · obtain ⟨T₁, -, h⟩ := Option.bind_eq_some_iff.mp h
          cases h
          exact absurd rfl hn
        · cases h
          exact absurd rfl hn

/-- With memory at hand a `set` returns. -/
theorem KvArray.Stores.set_returns (h : T.Stores es) (halloc : arrayLimits.Allocates env) (k v : CString) (t : UInt64) :
    ∃ r, kvsArraySetWithTimestamp env T k v t = some r := by
  have hhole := holeLoop_none (p := []) h
  rw [← h.total, List.length_nil] at hhole
  obtain ⟨p, hget⟩ : ∃ p, kvsArrayGet T k = some p := by
    rcases h.reads k with ⟨-, -, hg⟩ | ⟨-, a, -, -, hg, -⟩
    · exact ⟨_, hg⟩
    · exact ⟨_, hg⟩
  rw [kvsArraySetWithTimestamp]
  by_cases hfull : kvsArraySize ≤ T.total
  · exact ⟨_, if_pos hfull⟩
  rw [if_neg hfull, hget, Option.bind_eq_bind, Option.bind_some]
  by_cases hp : p ≠ .null
  · exact ⟨_, if_pos hp⟩
  rw [if_neg hp, if_neg (by simp [halloc.1]), if_neg (by simp [halloc.2]), hhole]
  simp only [Option.bind_eq_bind, Option.bind_some, if_pos (Nat.lt_of_not_le hfull),
    setItem_eq (Nat.lt_of_not_le hfull)]
  exact ⟨_, rfl⟩

/-- A new key is put behind the others. -/
theorem KvArray.Stores.set_new (h : T.Stores es) (hk : k ∉ es.map Prod.fst) (hroom : es.length < kvsArraySize)
    (henv : env.Allocates) (v : CString) :
    ∃ T', kvsArraySet env T k v = some (T', 0) ∧ T'.Stores (es ++ [(k, .str v, env.now)]) := by
  have halloc : arrayLimits.Allocates env := ⟨henv 0, henv 1⟩
  have hget : kvsArrayGet T k = some .null := by simp [kvsArrayGet, h.find_absent hk]
  obtain ⟨⟨T', n⟩, hs⟩ := h.set_returns halloc k v env.now
  rcases h.set hs with ⟨hn, -⟩ | ⟨rfl, -, h'⟩
  · rcases (kvsArraySet_code hs).1 hn with hfull | ⟨p, hp, hne⟩ | hno
    · rw [h.total] at hfull
      omega
    · exact absurd (Option.some.inj (hp.symm.trans hget)) hne
    · exact absurd halloc hno
  · exact ⟨T', hs, h'⟩

theorem array_present_iff {p : CharPtr} (h : kvsArrayGet T k = some p) : arrayEngine.Present T k ↔ p ≠ .null := by
  have hexist : arrayEngine.exist T k = some (if p = .null then -1 else 0) := kvsArrayExist_of_get h
  rw [Engine.Present, hexist]
  by_cases hp : p = .null <;> simp [hp]

theorem arrayAdds : arrayEngine.Adds arrayLimits (EngineKind.Sound .array) where
  keeps h hs := EngineKind.arrayKeeps.set h hs
  count {T} h := by
    obtain ⟨es, hst, -⟩ := h
    refine ⟨T.total, rfl, ?_⟩
    have hfits := hst.fits
    rw [← hst.total] at hfits
    exact Int.ofNat_le.mpr hfits
  room_mono hle h := hle.trans h
  allocates henv := ⟨henv 0, henv 1⟩
  stranded _ hstr hk := (array_present_iff hstr.2).mp hk rfl
  absent {T k} h hk v hv := hk ((array_present_iff hv).mpr (by simp))
  set {env T k v T' n} h hs := by
    obtain ⟨es, hst, -⟩ := h
    obtain ⟨hkept, hdone⟩ := kvsArraySet_code hs
    have hcount : arrayEngine.count T = some (T.total : Int) := rfl
    rcases hst.set hs with ⟨hn, rfl⟩ | ⟨hn, hget, h'⟩
    · refine .kept (fun j => .refl) (fun j => Iff.rfl) rfl ?_
      rcases hkept hn with hfull | ⟨p, hget, hp⟩ | halloc
      · refine Or.inr (Or.inr fun m hm => ?_)
        rw [hcount, Option.some.injEq] at hm
        simp only [arrayLimits]
        omega
      · exact Or.inl ((array_present_iff hget).mpr hp)
      · exact Or.inr (Or.inl halloc)
    · obtain ⟨hroom, halloc⟩ := hdone hn
      have hothers : ∀ j, j ≠ k → arrayEngine.SameAt T T' j ∧ (ArrayStranded T' j ↔ ArrayStranded T j) := by
        refine fun j hj => hst.sameAt h' ?_
        have hnone : [(k, CharPtr.str v, env.now)].lookup j = none := by
          rw [List.lookup_cons, beq_eq_false_iff_ne.mpr hj]
          rfl
        rw [List.lookup_append, hnone, Option.or_none]
      rcases hst.reads k with ⟨hl, hf, -⟩ | ⟨i, a, hl, hf, hg, -⟩
      · have hlookup : (es ++ [(k, CharPtr.str v, env.now)]).lookup k = some (.str v, env.now) := by
          rw [List.lookup_append, hl, Option.none_or, List.lookup_cons_self]
        rcases h'.reads k with ⟨hl', -, -⟩ | ⟨i, a, hl', -, hg', ht'⟩
        · rw [hlookup] at hl'
          cases hl'
        · rw [hlookup, Option.some.injEq] at hl'
          subst hl'
          refine .added (fun hk => (array_present_iff hget).mp hk rfl) (fun hstr => hstr.1 hf) halloc ?_ hg' ?_ ht' hothers
          · have htotal : T'.total = T.total + 1 := by
              rw [h'.total, List.length_append, ← hst.total]
              rfl
            have hcount' : arrayEngine.count T' = some (T'.total : Int) := rfl
            refine ⟨T.total, hcount, ?_⟩
            rw [hcount', htotal]
            rfl
          · exact (array_present_iff hg').mpr (by simp)
      · have hsame : arrayEngine.SameAt T T' k ∧ (ArrayStranded T' k ↔ ArrayStranded T k) := by
          refine hst.sameAt h' ?_
          rw [List.lookup_append, hl, Option.some_or]
        have hall : ∀ j, arrayEngine.SameAt T T' j ∧ (ArrayStranded T' j ↔ ArrayStranded T j) := fun j => by
          by_cases hj : j = k
          · exact hj ▸ hsame
          · exact hothers j hj
        exact .buried ⟨by simp [hf], hget⟩ (fun j => (hall j).1) fun j => (hall j).2
  returns h _ halloc v := by
    obtain ⟨es, hst, -⟩ := h
    exact hst.set_returns halloc _ v _

end Array

/-! ### The tree -/

def rbtreeLimits : Limits Rbtree where
  key := AnyString
  Stranded _ _ := False
  Allocates env := env.alloc 0 = true ∧ env.alloc 1 = true ∧ env.alloc 2 = true
  Room _ := True

section Rbtree
variable {T T' : Rbtree} {t t' : RBTree Cell} {k v : CString} {env : Env} {ts : UInt64} {n : Int}

theorem RbtreeInv.reads_absent (h : RbtreeInv T t) (hk : ∀ e ∈ t.toList, e.key ≠ k) :
    kvsRbtreeGet T k = some .null ∧ kvsRbtreeExist T k = some (-2) := by
  simp [kvsRbtreeGet, kvsRbtreeExist, h.search_absent hk]

theorem RbtreeInv.present_iff (h : RbtreeInv T t) : rbtreeEngine.Present T k ↔ ∃ e ∈ t.toList, e.key = k := h.exist_iff k

/-- Trees with the same cell for the key, or with none. -/
theorem RbtreeInv.sameAt (h : RbtreeInv T t) (h' : RbtreeInv T' t') (hmem : ∀ e, e.key = k → (e ∈ t.toList ↔ e ∈ t'.toList)) :
    rbtreeEngine.SameAt T T' k := by
  by_cases hk : ∃ e ∈ t.toList, e.key = k
  · obtain ⟨e, he, rfl⟩ := hk
    have he' : e ∈ t'.toList := (hmem e rfl).mp he
    obtain ⟨hget, htime⟩ := reads_eq h h' he he'
    refine ⟨hget, ?_, fun _ => htime⟩
    exact ((h'.exist_iff e.key).mpr ⟨e, he', rfl⟩).trans ((h.exist_iff e.key).mpr ⟨e, he, rfl⟩).symm
  · have hk : ∀ e ∈ t.toList, e.key ≠ k := fun e he hek => hk ⟨e, he, hek⟩
    obtain ⟨hget, hexist⟩ := h.reads_absent hk
    obtain ⟨hget', hexist'⟩ := h'.reads_absent fun e he hek => hk e ((hmem e hek).mpr he) hek
    refine ⟨hget'.trans hget.symm, hexist'.trans hexist.symm, fun hp => ?_⟩
    obtain ⟨e, he, hek⟩ := h.present_iff.mp hp
    exact absurd hek (hk e he)

/-- Why a `set` has not put a node into the tree. -/
theorem kvsRbtreeSet_code (h : kvsRbtreeSetWithTimestamp env T k v ts = some (T', n)) :
    (n ≠ 0 → (∃ p, kvsRbtreeGet T k = some p ∧ p ≠ .null) ∨ ¬rbtreeLimits.Allocates env) ∧
    (n = 0 → rbtreeLimits.Allocates env) := by
  have hmalloc : T.malloc = (T.malloc.1, T.next) := rfl
  simp only [kvsRbtreeSetWithTimestamp, Option.bind_eq_bind] at h
  obtain ⟨p, hget, h⟩ := Option.bind_eq_some_iff.mp h
  split at h
  · next hp =>
    cases h
    exact ⟨fun _ => Or.inl ⟨p, hget, hp⟩, fun h0 => absurd h0 (by decide)⟩
  split at h
  · cases h
  next h₀ =>
    rw [hmalloc] at h
    simp only at h
    split at h
    · next h₁ =>
      cases h
      exact ⟨fun _ => Or.inr fun ha => by simp [ha.2.1] at h₁, fun h0 => absurd h0 (by decide)⟩
    next h₁ =>
      obtain ⟨T₁, -, h⟩ := Option.bind_eq_some_iff.mp h
      split at h
      · next h₂ =>
        cases h
        exact ⟨fun _ => Or.inr fun ha => by simp [ha.2.2] at h₂, fun h0 => absurd h0 (by decide)⟩
      next h₂ =>
        refine ⟨fun hn => ?_, fun _ => ⟨by simpa using h₀, by simpa using h₁, by simpa using h₂⟩⟩
        obtain ⟨T₂, -, h⟩ := Option.bind_eq_some_iff.mp h
        obtain ⟨T₃, -, h⟩ := Option.bind_eq_some_iff.mp h
        obtain ⟨T₄, -, h⟩ := Option.bind_eq_some_iff.mp h
        cases h
        exact absurd rfl hn

theorem RbtreeInv.count (h : RbtreeInv T t) : rbtreeEngine.count T = some (t.toList.length : Int) := by
  have hrep : Rep T (plug [] t) := h.rep
  exact hrep.count

theorem RbtreeInv.get_returns (h : RbtreeInv T t) (k : CString) : ∃ p, kvsRbtreeGet T k = some p := by
  by_cases hk : ∃ e ∈ t.toList, e.key = k
  · obtain ⟨e, he, rfl⟩ := hk
    exact ⟨_, h.get_mem he⟩
  · exact ⟨_, (h.reads_absent fun e he hek => hk ⟨e, he, hek⟩).1⟩

/-- With memory for a node `rbtree_insert` is called on it, and returns. -/
theorem RbtreeInv.insert_returns (h : RbtreeInv T t) {T₁ T₂ T₃ : Rbtree} (hT₁ : T.malloc.1.setKey T.next k = some T₁)
    (hT₂ : T₁.setValue T.next (.str v) = some T₂) (hT₃ : T₂.setTimestamp T.next ts = some T₃) :
    ∃ T₄, rbtreeInsert T₃ T.next = some T₄ := by
  obtain ⟨T₁', T₂', T₃', hT₁', hT₂', hT₃', h₃, hspare⟩ := h.alloc k v ts
  obtain rfl := Option.some.inj (hT₁.symm.trans hT₁')
  obtain rfl := Option.some.inj (hT₂.symm.trans hT₂')
  obtain rfl := Option.some.inj (hT₃.symm.trans hT₃')
  by_cases hk : ∃ e ∈ t.toList, e.key = k
  · exact ⟨T₃, h₃.insert_present hspare h.sorted hk⟩
  · obtain ⟨T₄, -, -, -, hT₄, -⟩ := h₃.insert hspare h.valid h.sorted fun e he hek => hk ⟨e, he, hek⟩
    exact ⟨T₄, hT₄⟩

/-- With memory for a node a `set` returns. -/
theorem RbtreeInv.set_returns (h : RbtreeInv T t) (h₀ : env.alloc 0 = true) (k v : CString) (ts : UInt64) :
    ∃ r, kvsRbtreeSetWithTimestamp env T k v ts = some r := by
  obtain ⟨p, hget⟩ := h.get_returns k
  obtain ⟨T₁, T₂, T₃, hT₁, hT₂, hT₃, -⟩ := h.alloc k v ts
  obtain ⟨T₄, hT₄⟩ := h.insert_returns hT₁ hT₂ hT₃
  have hmalloc : T.malloc = (T.malloc.1, T.next) := rfl
  simp only [kvsRbtreeSetWithTimestamp, Option.bind_eq_bind]
  rw [hget, Option.bind_some]
  by_cases hp : p ≠ .null
  · exact ⟨_, if_pos hp⟩
  rw [if_neg hp, if_neg (by simp [h₀]), hmalloc]
  simp only
  by_cases h₁ : env.alloc 1 = false
  · exact ⟨_, if_pos h₁⟩
  rw [if_neg h₁, hT₁, Option.bind_some]
  by_cases h₂ : env.alloc 2 = false
  · exact ⟨_, if_pos h₂⟩
  rw [if_neg h₂, hT₂, Option.bind_some, hT₃, Option.bind_some, hT₄, Option.bind_some]
  exact ⟨_, rfl⟩

theorem rbtreeAdds : rbtreeEngine.Adds rbtreeLimits (EngineKind.Sound .rbtree) where
  keeps h hs := EngineKind.rbtreeKeeps.set h hs
  count {T} h := by
    obtain ⟨t, hi⟩ := h
    exact ⟨_, hi.count, trivial⟩
  room_mono _ _ := trivial
  allocates henv := ⟨henv 0, henv 1, henv 2⟩
  stranded _ hstr := hstr.elim
  absent {T k} h hk v hv := by
    obtain ⟨t, hi⟩ := h
    have hnull : kvsRbtreeGet T k = some .null :=
      (hi.reads_absent fun e he hek => hk (hi.present_iff.mpr ⟨e, he, hek⟩)).1
    cases hnull.symm.trans hv
  set {env T k v T' n} h hs := by
    obtain ⟨t, hi⟩ := h
    obtain ⟨hkept, hdone⟩ := kvsRbtreeSet_code hs
    have hpresent : ∀ p, kvsRbtreeGet T k = some p → p ≠ .null → rbtreeEngine.Present T k := by
      intro p hget hp
      by_contra hk
      have hnull := (hi.reads_absent fun e he hek => hk (hi.present_iff.mpr ⟨e, he, hek⟩)).1
      exact hp (Option.some.inj (hget.symm.trans hnull))
    rcases hi.set hs with ⟨hn, h'⟩ | ⟨hn, -, ⟨hk, h'⟩ | ⟨t', l₁, l₂, p, hk, h', hold, hnew⟩⟩
    · refine .kept (fun j => hi.sameAt h' fun e _ => Iff.rfl) (fun _ => Iff.rfl) (h'.count.trans hi.count.symm) ?_
      rcases hkept hn with ⟨p, hget, hp⟩ | halloc
      · exact Or.inl (hpresent p hget hp)
      · exact Or.inr (Or.inl halloc)
    · exact .kept (fun j => hi.sameAt h' fun e _ => Iff.rfl) (fun _ => Iff.rfl) (h'.count.trans hi.count.symm)
        (Or.inl (hi.present_iff.mpr hk))
    · have hcell : (⟨p, k, .str v, env.now⟩ : Cell) ∈ t'.toList := by simp [hnew]
      refine .added (fun hp => ?_) (fun hf => hf) (hdone hn) ⟨_, hi.count, ?_⟩ (h'.get_mem hcell)
        ((h'.exist_iff k).mpr ⟨_, hcell, rfl⟩) (h'.getTimestamp_mem hcell) fun j hj => ⟨hi.sameAt h' ?_, Iff.rfl⟩
      · obtain ⟨e, he, hek⟩ := hi.present_iff.mp hp
        exact hk e he hek
      · rw [h'.count, hold, hnew]
        simp only [List.length_append, List.length_cons]
        rfl
      · rintro e rfl
        have hne : e ≠ ⟨p, k, .str v, env.now⟩ := by
          rintro rfl
          exact hj rfl
        rw [hold, hnew, List.mem_append, List.mem_append, List.mem_cons]
        tauto
  returns {env T k} h _ halloc v := by
    obtain ⟨t, hi⟩ := h
    exact hi.set_returns halloc.1 k v env.now

end Rbtree

/-! ### The hash table -/

def hashLimits : Limits Hash where
  key := SlotInRange
  Stranded _ _ := False
  Allocates env := env.alloc 0 = true ∧ env.alloc 1 = true ∧ env.alloc 2 = true
  Room _ := True

/-- The table has its size, its nodes are counted and lie in the slots of their keys, and no value is a null pointer. -/
structure HashSound (H : Hash) : Prop where
  maxSlots : H.maxSlots = maxTableSize
  count : H.count = H.entries.length
  placed : ∀ i, ∀ n ∈ H.table i, hash n.key maxTableSize = i
  value : ∀ i, ∀ n ∈ H.table i, n.value ≠ .null

/-- The node that the search for a key finds; without a bucket for the key, the search is a fault. -/
def Hash.find (H : Hash) (k : CString) : Option (Option HashNode) := (H.chain (hash k H.maxSlots)).map (findHashNode k)

section Hash
variable {H H' : Hash} {k v : CString} {chain c : List HashNode} {node : HashNode} {env : Env} {t : UInt64} {n : Int}

theorem kvsHashGet_eq (H : Hash) (k : CString) :
    kvsHashGet H k = (H.find k).map fun node => node.elim .null HashNode.value := by
  rw [kvsHashGet, Hash.find]
  cases H.chain (hash k H.maxSlots) with
  | none => rfl
  | some chain =>
    simp only [Option.bind_eq_bind, Option.bind_some, Option.map_some]
    cases findHashNode k chain <;> rfl

theorem kvsHashGetTimestamp_eq (H : Hash) (k : CString) :
    kvsHashGetTimestamp H k = (H.find k).map fun node => node.elim 0 HashNode.timestamp := by
  rw [kvsHashGetTimestamp, Hash.find]
  cases H.chain (hash k H.maxSlots) with
  | none => rfl
  | some chain =>
    simp only [Option.bind_eq_bind, Option.bind_some, Option.map_some]
    cases findHashNode k chain <;> rfl

theorem kvsHashExist_eq (H : Hash) (k : CString) :
    kvsHashExist H k = (kvsHashGet H k).map fun value => if value = .null then -1 else 0 := by
  rw [kvsHashExist]
  cases kvsHashGet H k with
  | none => rfl
  | some p => exact (apply_ite some _ _ _).symm

/-- The reads of a key show the node that its search finds. -/
theorem hash_sameAt (h : H'.find k = H.find k) : hashEngine.SameAt H H' k := by
  have hget : kvsHashGet H' k = kvsHashGet H k := by rw [kvsHashGet_eq, kvsHashGet_eq, h]
  refine ⟨hget, ?_, fun _ => ?_⟩
  · have hexist : kvsHashExist H' k = kvsHashExist H k := by rw [kvsHashExist_eq, kvsHashExist_eq, hget]
    exact hexist
  · have htime : kvsHashGetTimestamp H' k = kvsHashGetTimestamp H k := by
      rw [kvsHashGetTimestamp_eq, kvsHashGetTimestamp_eq, h]
    exact htime

namespace HashSound
variable (h : HashSound H)
include h

/-- A chain that is reached through a key is the bucket of that key. -/
theorem bucket (hc : H.chain (hash k H.maxSlots) = some chain) :
    SlotInRange k ∧ H.table (hash k maxTableSize).toNat = chain := by
  rw [h.maxSlots, Hash.chain] at hc
  split at hc
  · next hin =>
    rw [h.maxSlots] at hin
    exact ⟨hin, Option.some.inj hc⟩
  · cases hc

theorem present_of_find (hf : H.find k = some (some node)) : hashEngine.Present H k := by
  obtain ⟨chain, hc, hfind⟩ := Option.map_eq_some_iff.mp hf
  have hmem := findHashNode_mem hfind
  rw [← (h.bucket hc).2] at hmem
  have hexist : kvsHashExist H k = some 0 := by
    rw [kvsHashExist_eq, kvsHashGet_eq, hf]
    simp [h.value _ node hmem]
  exact hexist

/-- A bucket that is replaced by one of the same keys. -/
theorem setChain {d : Int} (hc : H.chain (hash k H.maxSlots) = some chain)
    (hnodes : ∀ n ∈ c, hash n.key maxTableSize = hash k maxTableSize ∧ n.value ≠ .null)
    (hlen : (c.length : Int) = chain.length + d) :
    HashSound { H.setChain (hash k H.maxSlots) c with count := H.count + d } := by
  obtain ⟨hk, hbucket⟩ := h.bucket hc
  rw [h.maxSlots]
  have htable : ∀ i, ∀ n ∈ (H.setChain (hash k maxTableSize) c).table i,
      hash n.key maxTableSize = i ∧ n.value ≠ .null := by
    intro i n hn
    by_cases hi : i = (hash k maxTableSize).toNat
    · subst hi
      rw [setChain_table_self] at hn
      obtain ⟨hslot, hv⟩ := hnodes n hn
      exact ⟨hslot.trans hk.toNat_eq.symm, hv⟩
    · rw [setChain_table_ne hi] at hn
      exact ⟨h.placed i n hn, h.value i n hn⟩
  refine ⟨h.maxSlots, ?_, fun i n hn => (htable i n hn).1, fun i n hn => (htable i n hn).2⟩
  obtain ⟨l₁, l₂, hl⟩ := entries_setChain H hk
  have hnew := congrArg List.length (hl c)
  have hold := hl (H.table (hash k maxTableSize).toNat)
  rw [Hash.setChain_self rfl] at hold
  have hold := congrArg List.length hold
  simp only [List.length_append, List.length_map, hbucket] at hnew hold
  change H.count + d = (H.setChain (hash k maxTableSize) c).entries.length
  rw [h.count, hnew, hold]
  omega

theorem of_chain (hc : H.chain (hash k H.maxSlots) = some chain) :
    ∀ n ∈ chain, hash n.key maxTableSize = hash k maxTableSize ∧ n.value ≠ .null := by
  obtain ⟨hk, rfl⟩ := h.bucket hc
  exact fun n hn => ⟨(h.placed _ n hn).trans hk.toNat_eq, h.value _ n hn⟩

end HashSound

theorem createHashNode_eq_none (h : createHashNode env k v t = none) : ¬hashLimits.Allocates env := by
  rintro ⟨h₀, h₁, h₂⟩
  simp [createHashNode, h₀, h₁, h₂] at h

theorem allocates_of_createHashNode (h : createHashNode env k v t = some node) : hashLimits.Allocates env := by
  unfold createHashNode at h
  split at h
  · cases h
  next h₀ =>
    split at h
    · cases h
    next h₁ =>
      split at h
      · cases h
      next h₂ => exact ⟨by simpa using h₀, by simpa using h₁, by simpa using h₂⟩

/-- The three ends of a `set` that returns. -/
theorem kvsHashSet_cases (h : kvsHashSetWithTimestamp env H k v t = some (H', n)) :
    ∃ chain, H.chain (hash k H.maxSlots) = some chain ∧
      ((∃ node, findHashNode k chain = some node ∧ H' = H) ∨
        findHashNode k chain = none ∧ createHashNode env k v t = none ∧ H' = H ∨
        findHashNode k chain = none ∧ hashLimits.Allocates env ∧
          H' = { H.setChain (hash k H.maxSlots) (⟨k, .str v, t⟩ :: chain) with count := H.count + 1 }) := by
  simp only [kvsHashSetWithTimestamp, Option.bind_eq_bind] at h
  obtain ⟨chain, hc, h⟩ := Option.bind_eq_some_iff.mp h
  refine ⟨chain, hc, ?_⟩
  cases hf : findHashNode k chain with
  | some node =>
    simp only [hf] at h
    cases h
    exact Or.inl ⟨node, rfl, rfl⟩
  | none =>
    simp only [hf] at h
    cases hnode : createHashNode env k v t with
    | none =>
      simp only [hnode] at h
      cases h
      exact Or.inr (Or.inl ⟨rfl, rfl, rfl⟩)
    | some node =>
      simp only [hnode] at h
      cases h
      rw [createHashNode_eq hnode]
      exact Or.inr (Or.inr ⟨rfl, allocates_of_createHashNode hnode, rfl⟩)

theorem hashSound_keeps : hashEngine.Keeps HashSound where
  set {env H k v t H' n} h hs := by
    obtain ⟨chain, hc, ⟨-, -, rfl⟩ | ⟨-, -, rfl⟩ | ⟨-, -, rfl⟩⟩ := kvsHashSet_cases hs
    · exact h
    · exact h
    · exact h.setChain hc (List.forall_mem_cons.mpr ⟨⟨rfl, by simp⟩, h.of_chain hc⟩) rfl
  modify {env H k v t H' n} h hs := by
    have hmodify : kvsHashModifyWithTimestamp env H k v t = some (H', n) := hs
    obtain ⟨chain, hc, -⟩ := Option.bind_eq_some_iff.mp hmodify
    rcases chain_cases k chain with hn | ⟨c₁, node, c₂, rfl, hk, hn⟩
    · rw [Hash.modify_none hc hn] at hmodify
      cases hmodify
      exact h
    · have hnodes := h.of_chain hc
      have hwrite : ∀ node' : HashNode, node'.key = k → node'.value ≠ .null →
          HashSound (H.setChain (hash k H.maxSlots) (c₁ ++ node' :: c₂)) := by
        intro node' hkey hvalue
        have hkept := h.setChain (c := c₁ ++ node' :: c₂) (d := 0) hc ?_ (by simp)
        · rw [add_zero] at hkept
          exact hkept
        · simp only [List.forall_mem_append, List.forall_mem_cons] at hnodes ⊢
          exact ⟨hnodes.1, ⟨by rw [hkey], hvalue⟩, hnodes.2.2⟩
      rw [Hash.modify_chain hn hk hc, Option.map_eq_some_iff] at hmodify
      obtain ⟨-, -, hmodify⟩ := hmodify
      split at hmodify <;> cases hmodify
      · exact hwrite _ hk (by simp)
      · exact hwrite _ hk (by simp)
  delete {H k H' n} h hs := by
    have hdelete : kvsHashDelete H k = some (H', n) := hs
    obtain ⟨chain, hc, -⟩ := Option.bind_eq_some_iff.mp hdelete
    rcases chain_cases k chain with hn | ⟨c₁, node, c₂, rfl, hk, hn⟩
    · rw [Hash.delete_absent hc hn] at hdelete
      cases hdelete
      exact h
    · by_cases hv : node.value = .freed
      · rw [Hash.delete_freed hn hk hv hc] at hdelete
        cases hdelete
      · rw [Hash.delete_chain hn hk (CharPtr.free_eq hv) hc] at hdelete
        cases hdelete
        have hnodes := h.of_chain hc
        simp only [List.forall_mem_append, List.forall_mem_cons] at hnodes
        refine h.setChain hc (List.forall_mem_append.mpr ⟨hnodes.1, hnodes.2.2⟩) ?_
        simp only [List.length_append, List.length_cons]
        omega

theorem hashCreate_sound : HashSound kvsHashCreate where
  maxSlots := rfl
  count := hashCreate_holds.count
  placed := hashCreate_holds.placed
  value _ _ hn := absurd hn List.not_mem_nil

/-- The searches for other keys in a table with a new node. -/
theorem find_setChain {d : Int} (hc : H.chain (hash k H.maxSlots) = some chain) {j : CString}
    (hj : findHashNode j c = findHashNode j chain) :
    Hash.find { H.setChain (hash k H.maxSlots) c with count := H.count + d } j = H.find j := by
  have hslot : ∀ slot, Hash.chain { H.setChain (hash k H.maxSlots) c with count := H.count + d } slot =
      if slot = hash k H.maxSlots then some c else H.chain slot := by
    intro slot
    by_cases hs : slot = hash k H.maxSlots
    · rw [if_pos hs, hs]
      exact chain_setChain c hc
    · rw [if_neg hs]
      unfold Hash.chain at hc ⊢
      split at hc
      · next hin =>
        by_cases hrange : 0 ≤ slot ∧ slot < H.maxSlots
        · have hne : slot.toNat ≠ (hash k H.maxSlots).toNat := by omega
          exact (if_pos hrange).trans ((congrArg some (setChain_table_ne hne)).trans (if_pos hrange).symm)
        · exact (if_neg hrange).trans (if_neg hrange).symm
      · cases hc
  change (Hash.chain _ (hash j H.maxSlots)).map _ = (H.chain (hash j H.maxSlots)).map _
  rw [hslot]
  split
  · next hs => rw [hs, hc, Option.map_some, Option.map_some, hj]
  · rfl

theorem hashAdds : hashEngine.Adds hashLimits HashSound where
  keeps h hs := hashSound_keeps.set h hs
  count {H} _ := ⟨H.count, rfl, trivial⟩
  room_mono _ _ := trivial
  allocates henv := ⟨henv 0, henv 1, henv 2⟩
  stranded _ hstr := hstr.elim
  absent {H k} h hk v hv := by
    have hget : kvsHashGet H k = some (.str v) := hv
    rw [kvsHashGet_eq, Option.map_eq_some_iff] at hget
    obtain ⟨node, hf, hnode⟩ := hget
    cases node with
    | none => cases hnode
    | some node => exact hk (h.present_of_find hf)
  set {env H k v H' n} h hs := by
    obtain ⟨chain, hc, ⟨node, hf, rfl⟩ | ⟨-, hnode, rfl⟩ | ⟨hf, halloc, rfl⟩⟩ := kvsHashSet_cases hs
    · have hfind : Hash.find _ k = some (some node) := (congrArg (Option.map (findHashNode k)) hc).trans (congrArg some hf)
      exact .kept (fun _ => .refl) (fun _ => Iff.rfl) rfl (Or.inl (h.present_of_find hfind))
    · exact .kept (fun _ => .refl) (fun _ => Iff.rfl) rfl (Or.inr (Or.inl (createHashNode_eq_none hnode)))
    · have hfind : Hash.find { H.setChain (hash k H.maxSlots) (⟨k, .str v, env.now⟩ :: chain) with
          count := H.count + 1 } k = some (some ⟨k, .str v, env.now⟩) := by
        have hchain : Hash.chain { H.setChain (hash k H.maxSlots) (⟨k, .str v, env.now⟩ :: chain) with
            count := H.count + 1 } (hash k H.maxSlots) = some (⟨k, .str v, env.now⟩ :: chain) :=
          chain_setChain _ hc
        change (Hash.chain _ (hash k H.maxSlots)).map _ = _
        rw [hchain, Option.map_some]
        simp only [findHashNode, strcmp_eq_zero, if_true]
      refine .added ?_ (fun hf => hf) halloc ⟨H.count, rfl, rfl⟩ ?_ ?_ ?_ fun j hj => ⟨hash_sameAt ?_, Iff.rfl⟩
      · intro hp
        have hexist : kvsHashExist H k = some 0 := hp
        rw [kvsHashExist_eq, kvsHashGet_eq, Hash.find, hc, Option.map_some, hf] at hexist
        cases hexist
      · exact (kvsHashGet_eq _ k).trans (by rw [hfind]; rfl)
      · exact (kvsHashExist_eq _ k).trans (by rw [kvsHashGet_eq, hfind]; rfl)
      · exact (kvsHashGetTimestamp_eq _ k).trans (by rw [hfind]; rfl)
      · refine find_setChain hc ?_
        rw [findHashNode, if_neg (by simpa using hj.symm)]
  returns {env H k} h hk halloc v := by
    obtain ⟨chain, hc⟩ := SlotInRange.exists_chain hk h.maxSlots
    have hreturns : kvsHashSetWithTimestamp env H k v env.now ≠ none := Hash.set_chain hc
    exact Option.ne_none_iff_exists'.mp hreturns

end Hash

namespace EngineKind

/-- What can stand in the way of a `set`. Of the skip list only the keys are looked at. -/
def limits : (kind : EngineKind) → Limits kind.Store
  | .array => arrayLimits
  | .rbtree => rbtreeLimits
  | .hash => hashLimits
  | .skiptable => ⟨Short, fun _ _ => False, Env.Allocates, fun _ => True⟩

/-- Whatever its calls and their allocations come to, a run ends in a store on which `set` behaves. -/
theorem adds {kind : EngineKind} (hkind : kind ≠ .skiptable) : ∃ I, kind.engine.Adds kind.limits I ∧
    ∀ {calls s outs}, Run.runs kind.engine.exec kind.created calls = some (s, outs) → I s := by
  cases kind with
  | array =>
    exact ⟨_, arrayAdds, arrayKeeps.runs arrayLaws.set_eq arrayLaws.modify_eq (created_sound .array)⟩
  | rbtree =>
    exact ⟨_, rbtreeAdds, rbtreeKeeps.runs rbtreeLaws.set_eq rbtreeLaws.modify_eq (created_sound .rbtree)⟩
  | hash => exact ⟨_, hashAdds, hashSound_keeps.runs hashLaws.set_eq hashLaws.modify_eq hashCreate_sound⟩
  | skiptable => exact absurd rfl hkind

end EngineKind

end KvStore
