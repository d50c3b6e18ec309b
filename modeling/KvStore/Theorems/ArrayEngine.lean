import KvStore.Array
import KvStore.MapSpec

/-! The calls of the array engine do what the map machine does. -/

namespace KvStore
open FiniteMap

/-- The slot that stores an entry. -/
def arrayItem (e : CString × CharPtr × UInt64) : ArrayItem := ⟨.str e.1, e.2.1, e.2.2⟩

/-- The first slots of the table store the entries `es`. -/
structure KvArray.Stores (T : KvArray) (es : List (CString × CharPtr × UInt64)) : Prop where
  total : T.total = es.length
  fits : es.length ≤ kvsArraySize
  slot : ∀ i e, es[i]? = some e → T.table i = some (arrayItem e)

/-- The store holds the map `m`: its items are the entries of `m`, each once. -/
def ArrayHolds (T : KvArray) (m : Map CString Entry) : Prop :=
  ∃ es, T.Stores es ∧ Lists es (m.mapVal Entry.stored)

def arrayAnswers : Answers where
  full n := if kvsArraySize ≤ n then some (-2) else none
  modifyAbsent n := if n = 0 then -2 else -4
  deleteAbsent := 1
  existAbsent := -1

section Stores
variable {T : KvArray} {es p : List (CString × CharPtr × UInt64)} {e : CString × CharPtr × UInt64} {k : CString}
  {i : Nat}

theorem KvArray.Stores.item (h : T.Stores es) (he : es[i]? = some e) : T.item i = some (arrayItem e) := by
  have hi : i < es.length := (List.getElem?_eq_some_iff.mp he).1
  rw [KvArray.item, if_pos (Nat.lt_of_lt_of_le hi h.fits)]
  exact h.slot i e he

theorem hasKey_arrayItem : (arrayItem e).hasKey k = some (decide (e.1 = k)) := by
  simp [ArrayItem.hasKey, arrayItem]

theorem exists_first {α : Type} {es : List (CString × α)} (hk : k ∈ es.map Prod.fst) :
    ∃ l₁ a l₂, es = l₁ ++ (k, a) :: l₂ ∧ k ∉ l₁.map Prod.fst := by
  induction es with
  | nil => cases hk
  | cons e es ih =>
    by_cases he : e.1 = k
    · exact ⟨[], e.2, es, by rw [← he]; rfl, by simp⟩
    · have hrest : k ∈ es.map Prod.fst := by simpa [Ne.symm he] using hk
      obtain ⟨l₁, a, l₂, rfl, hk₁⟩ := ih hrest
      exact ⟨e :: l₁, a, l₂, rfl, by simpa [Ne.symm he] using hk₁⟩

theorem findLoop_absent (h : T.Stores (p ++ es)) (hk : k ∉ es.map Prod.fst) :
    arrayFindLoop T k es.length p.length = some none := by
  induction es generalizing p with
  | nil => rfl
  | cons e es ih =>
    rw [List.map_cons, List.mem_cons, not_or] at hk
    have hitem : T.item p.length = some (arrayItem e) := h.item (by simp)
    have hrest := ih (p := p ++ [e]) (by rwa [List.append_assoc]) hk.2
    rw [List.length_append, List.length_singleton] at hrest
    simp [arrayFindLoop, hitem, hasKey_arrayItem, Ne.symm hk.1, hrest]

theorem findLoop_present {es₂ : List (CString × CharPtr × UInt64)} (h : T.Stores (p ++ (es ++ e :: es₂)))
    (hk : e.1 ∉ es.map Prod.fst) :
    arrayFindLoop T e.1 (es ++ e :: es₂).length p.length = some (some (p.length + es.length)) := by
  induction es generalizing p with
  | nil =>
    have hitem : T.item p.length = some (arrayItem e) := h.item (by simp)
    simp [arrayFindLoop, hitem, hasKey_arrayItem]
  | cons e' es ih =>
    rw [List.map_cons, List.mem_cons, not_or] at hk
    have hitem : T.item p.length = some (arrayItem e') := h.item (by simp)
    have hrest := ih (p := p ++ [e']) (by rwa [List.append_assoc]) hk.2
    have hlen : (p ++ [e']).length = p.length + 1 := by simp
    rw [hlen] at hrest
    rw [List.cons_append, List.length_cons, arrayFindLoop, hitem]
    simp only [Option.bind_eq_bind, Option.bind_some, hasKey_arrayItem, eq_false (Ne.symm hk.1), decide_false,
      Bool.false_eq_true, if_false, hrest]
    rw [List.length_cons, Nat.add_right_comm, Nat.add_assoc]

theorem KvArray.Stores.find_first {l₁ l₂ : List (CString × CharPtr × UInt64)} {a : CharPtr × UInt64}
    (h : T.Stores (l₁ ++ (k, a) :: l₂)) (hk : k ∉ l₁.map Prod.fst) : kvsArrayFindIndex T k = some (some l₁.length) := by
  have hfind : arrayFindLoop T k (l₁ ++ (k, a) :: l₂).length [].length = some (some ([].length + l₁.length)) :=
    findLoop_present (p := []) (e := (k, a)) h hk
  rw [List.length_nil, Nat.zero_add] at hfind
  rw [kvsArrayFindIndex, h.total]
  exact hfind

theorem KvArray.Stores.find_absent (h : T.Stores es) (hk : k ∉ es.map Prod.fst) : kvsArrayFindIndex T k = some none := by
  rw [kvsArrayFindIndex, h.total]
  exact findLoop_absent (p := []) h hk

/-- Where the search for a key ends: nowhere, or at the first item that has it. -/
theorem KvArray.Stores.first (h : T.Stores es) (k : CString) :
    (k ∉ es.map Prod.fst ∧ kvsArrayFindIndex T k = some none) ∨
    ∃ l₁ a l₂, es = l₁ ++ (k, a) :: l₂ ∧ k ∉ l₁.map Prod.fst ∧ kvsArrayFindIndex T k = some (some l₁.length) ∧
      T.item l₁.length = some (arrayItem (k, a)) := by
  by_cases hk : k ∈ es.map Prod.fst
  · obtain ⟨l₁, a, l₂, rfl, hk₁⟩ : ∃ l₁ a l₂, es = l₁ ++ (k, a) :: l₂ ∧ k ∉ l₁.map Prod.fst := exists_first hk
    exact Or.inr ⟨l₁, a, l₂, rfl, hk₁, h.find_first hk₁, h.item (by simp)⟩
  · exact Or.inl ⟨hk, h.find_absent hk⟩

/-- A table without null keys has no hole. -/
theorem holeLoop_none (h : T.Stores (p ++ es)) : arrayHoleLoop T es.length p.length = some none := by
  induction es generalizing p with
  | nil => rfl
  | cons e es ih =>
    have hitem : T.item p.length = some (arrayItem e) := h.item (by simp)
    have hrest := ih (p := p ++ [e]) (by rwa [List.append_assoc])
    rw [List.length_append, List.length_singleton] at hrest
    simp [arrayHoleLoop, hitem, arrayItem, hrest]

theorem setItem_eq {a : ArrayItem} (hi : i < kvsArraySize) :
    T.setItem i a = some { T with table := Function.update T.table i (some a) } := if_pos hi

theorem item_update {a : ArrayItem} {n j : Nat} (hi : i < kvsArraySize) :
    KvArray.item ⟨Function.update T.table j (some a), n⟩ i = if i = j then some a else T.item i := by
  simp [KvArray.item, hi, Function.update_apply]

theorem KvArray.Stores.lt_size (h : T.Stores es) (hi : i < es.length) : i < kvsArraySize :=
  Nat.lt_of_lt_of_le hi h.fits

/-- Overwriting the entry of one slot. -/
theorem KvArray.Stores.update {l₁ l₂ : List (CString × CharPtr × UInt64)} {f : CString × CharPtr × UInt64}
    (h : T.Stores (l₁ ++ e :: l₂)) :
    KvArray.Stores ⟨Function.update T.table l₁.length (some (arrayItem f)), T.total⟩ (l₁ ++ f :: l₂) where
  total := by simpa using h.total
  fits := by simpa using h.fits
  slot i a ha := by
    by_cases hi : i = l₁.length
    · subst hi
      simp only [List.getElem?_append_right, Nat.sub_self, List.getElem?_cons_zero, Nat.le_refl, Option.some.injEq] at ha
      rw [ha]
      exact Function.update_self ..
    · have hold : (l₁ ++ e :: l₂)[i]? = some a := by
        rw [List.getElem?_append] at ha ⊢
        split
        · rwa [if_pos ‹_›] at ha
        · rw [if_neg ‹_›] at ha
          obtain ⟨n, hn⟩ : ∃ n, i - l₁.length = n + 1 := ⟨i - l₁.length - 1, by omega⟩
          rw [hn] at ha ⊢
          exact ha
      exact (Function.update_of_ne hi ..).trans (h.slot i a hold)

/-- Writing the slot behind the last one. -/
theorem KvArray.Stores.push (h : T.Stores es) (hroom : es.length < kvsArraySize) :
    KvArray.Stores ⟨Function.update T.table es.length (some (arrayItem e)), T.total + 1⟩ (es ++ [e]) where
  total := by simp [h.total]
  fits := by simpa using hroom
  slot i a ha := by
    by_cases hi : i = es.length
    · subst hi
      simp only [List.getElem?_append_right, Nat.sub_self, List.getElem?_cons_zero, Nat.le_refl, Option.some.injEq] at ha
      rw [ha]
      exact Function.update_self ..
    · have hlt : i < es.length := by
        have := (List.getElem?_eq_some_iff.mp ha).1
        rw [List.length_append, List.length_singleton] at this
        omega
      rw [List.getElem?_append_left hlt] at ha
      exact (Function.update_of_ne hi ..).trans (h.slot i a ha)

/-- Dropping the last slot, whatever it holds. -/
theorem KvArray.Stores.pop {x : Option ArrayItem} (h : T.Stores (es ++ [e])) :
    KvArray.Stores ⟨Function.update T.table es.length x, T.total - 1⟩ es where
  total := by simp [h.total]
  fits := by
    have := h.fits
    rw [List.length_append] at this
    omega
  slot i a ha := by
    have hlt := (List.getElem?_eq_some_iff.mp ha).1
    refine (Function.update_of_ne hlt.ne ..).trans (h.slot i a ?_)
    rwa [List.getElem?_append_left hlt]

/-! ### The calls, whatever values the items have -/

section Any
variable {v : CString} {a : CharPtr × UInt64} {l₁ l₂ : List (CString × CharPtr × UInt64)} {env : Env} {t : UInt64}
  {T' : KvArray} {n : Int}

theorem KvArray.Stores.get_first (h : T.Stores (l₁ ++ (k, a) :: l₂)) (hk : k ∉ l₁.map Prod.fst) :
    kvsArrayGet T k = some a.1 := by
  have hitem : T.item l₁.length = some (arrayItem (k, a)) := h.item (by simp)
  simp only [kvsArrayGet, h.find_first hk, Option.bind_eq_bind, Option.bind_some, hitem, arrayItem]

/-- A `set` that returns has left the table as it was, or put an item behind the others. -/
theorem KvArray.Stores.set (h : T.Stores es) (hs : kvsArraySetWithTimestamp env T k v t = some (T', n)) :
    n ≠ 0 ∧ T' = T ∨ n = 0 ∧ kvsArrayGet T k = some .null ∧ T'.Stores (es ++ [(k, .str v, t)]) := by
  rw [kvsArraySetWithTimestamp] at hs
  split at hs
  · cases hs
    exact Or.inl ⟨by decide, rfl⟩
  next hroom =>
    have hlt : es.length < kvsArraySize := h.total ▸ Nat.lt_of_not_le hroom
    have hhole := holeLoop_none (p := []) h
    rw [← h.total, List.length_nil] at hhole
    simp only [Option.bind_eq_bind, Option.bind_eq_some_iff] at hs
    obtain ⟨str, hget, hs⟩ := hs
    split at hs
    · cases hs
      exact Or.inl ⟨by decide, rfl⟩
    next hnull =>
      split at hs
      · cases hs
        exact Or.inl ⟨by decide, rfl⟩
      split at hs
      · cases hs
        exact Or.inl ⟨by decide, rfl⟩
      rw [hhole, Option.bind_some] at hs
      simp only [if_pos (Nat.lt_of_not_le hroom), setItem_eq (Nat.lt_of_not_le hroom), Option.bind_some,
        Option.some.injEq, Prod.mk.injEq] at hs
      obtain ⟨rfl, rfl⟩ := hs
      rw [not_not] at hnull
      refine Or.inr ⟨rfl, hnull ▸ hget, ?_⟩
      have hpush := h.push (e := (k, .str v, t)) hlt
      rwa [← h.total] at hpush

theorem CharPtr.free_eq {c : CharPtr} (hc : c ≠ .freed) : c.free = some () := by
  cases c with
  | freed => exact absurd rfl hc
  | null => rfl
  | str s => rfl

/-- Without an allocation the value of the key becomes a null pointer. -/
theorem KvArray.Stores.modify_failed (h : T.Stores (l₁ ++ (k, a) :: l₂)) (hk : k ∉ l₁.map Prod.fst) (ha : a.1 ≠ .freed)
    (v : CString) (t : UInt64) (h₀ : env.alloc 0 = false) :
    ∃ T', kvsArrayModifyWithTimestamp env T k v t = some (T', -3) ∧ T'.Stores (l₁ ++ (k, .null, a.2) :: l₂) := by
  have hpos : T.total ≠ 0 := by simp [h.total]
  have hlt : l₁.length < kvsArraySize := h.lt_size (by simp)
  have hitem : T.item l₁.length = some (arrayItem (k, a)) := h.item (by simp)
  refine ⟨_, ?_, h.update⟩
  simp only [kvsArrayModifyWithTimestamp, Option.bind_eq_bind]
  rw [if_neg hpos, h.find_first hk, Option.bind_some]
  simp only [hitem, Option.bind_some, arrayItem, CharPtr.free_eq ha, h₀, if_true, setItem_eq hlt]

/-- Overwriting the value of a key. -/
theorem KvArray.Stores.modify (h : T.Stores (l₁ ++ (k, a) :: l₂)) (hk : k ∉ l₁.map Prod.fst) (ha : a.1 ≠ .freed)
    (env : Env) (v : CString) (t : UInt64) :
    ∃ T' b n, kvsArrayModifyWithTimestamp env T k v t = some (T', n) ∧ T'.Stores (l₁ ++ (k, b) :: l₂) ∧
      b.1 ≠ .freed ∧ (env.alloc 0 = true → b = (.str v, t) ∧ n = 0) := by
  have hpos : T.total ≠ 0 := by simp [h.total]
  have hlt : l₁.length < kvsArraySize := h.lt_size (by simp)
  have hitem : T.item l₁.length = some (arrayItem (k, a)) := h.item (by simp)
  cases h₀ : env.alloc 0 with
  | false =>
    obtain ⟨T', hs, h'⟩ := h.modify_failed hk ha v t h₀
    exact ⟨T', _, -3, hs, h', by simp, by simp⟩
  | true =>
    refine ⟨_, (.str v, t), 0, ?_, h.update, by simp, by simp⟩
    simp only [kvsArrayModifyWithTimestamp, Option.bind_eq_bind]
    rw [if_neg hpos, h.find_first hk, Option.bind_some]
    simp only [hitem, Option.bind_some, arrayItem, CharPtr.free_eq ha, h₀, Bool.true_eq_false, if_false, setItem_eq hlt]

/-- Deleting the item of a key whose value can be freed; the last item fills its slot. -/
theorem KvArray.Stores.delete (h : T.Stores (l₁ ++ (k, a) :: l₂)) (hk : k ∉ l₁.map Prod.fst) (ha : a.1 ≠ .freed) :
    ∃ T' es', kvsArrayDelete T k = some (T', 0) ∧ T'.Stores es' ∧ (l₁ ++ l₂).Perm es' := by
  have hf := h.find_first hk
  have hitem : T.item l₁.length = some (arrayItem (k, a)) := h.item (by simp)
  have hlt : l₁.length < kvsArraySize := h.lt_size (by simp)
  have hstart : ∀ f : KvArray → Option (KvArray × Int),
      (do let item ← T.item l₁.length
          item.key.free
          item.value.free
          let T ← T.setItem l₁.length .cleared
          f T) = f { T with table := Function.update T.table l₁.length (some .cleared) } := by
    intro f
    have hkey : (CharPtr.str k).free = some () := rfl
    simp only [Option.bind_eq_bind, hitem, Option.bind_some, arrayItem, hkey, CharPtr.free_eq ha, setItem_eq hlt]
  rcases List.eq_nil_or_concat' l₂ with rfl | ⟨l₃, z, rfl⟩
  · -- the last slot is the one that is emptied
    have hlast : l₁.length + 1 = T.total := by simp [h.total]
    refine ⟨_, l₁, ?_, h.pop (x := some .cleared), by simp⟩
    simp only [kvsArrayDelete, Option.bind_eq_bind] at hstart ⊢
    rw [hf, Option.bind_some]
    simp only [hstart, if_pos hlast]
  · -- the last item moves into the slot
    have hne : l₁.length + 1 ≠ T.total := by simp [h.total]
    have hend : T.total - 1 = (l₁ ++ z :: l₃).length := by
      simp only [h.total, List.length_append, List.length_cons, List.length_nil]
      omega
    have hlt' : T.total - 1 < kvsArraySize := by
      have := h.fits
      rw [← h.total] at this
      have : 0 < kvsArraySize := by decide
      omega
    have hother : T.total - 1 ≠ l₁.length := by
      rw [hend, List.length_append, List.length_cons]
      omega
    have hz : T.item (T.total - 1) = some (arrayItem z) := h.item (by
      rw [hend]
      simp)
    have hmoved := h.update (f := z)
    rw [← List.cons_append, ← List.append_assoc] at hmoved
    refine ⟨_, l₁ ++ z :: l₃, ?_, hmoved.pop (x := some .cleared), (List.perm_append_singleton z l₃).append_left l₁⟩
    simp only [kvsArrayDelete, Option.bind_eq_bind] at hstart ⊢
    rw [hf, Option.bind_some]
    simp only [hstart, if_neg hne]
    rw [item_update hlt', if_neg hother, hz, Option.bind_some, setItem_eq hlt, Option.bind_some,
      setItem_eq hlt', Option.bind_some]
    simp only [Function.update_idem, hend]

end Any

end Stores

section Calls
variable {T : KvArray} {m : Map CString Entry} {k v : CString} {e : Entry} {env : Env} {t : UInt64}

theorem ArrayHolds.find_present (h : ArrayHolds T m) (hm : m k = some e) :
    ∃ l₁ l₂, T.Stores (l₁ ++ (k, e.stored) :: l₂) ∧ k ∉ l₁.map Prod.fst ∧
      Lists (l₁ ++ (k, e.stored) :: l₂) (m.mapVal Entry.stored) := by
  obtain ⟨es, hs, hl⟩ := h
  obtain ⟨l₁, l₂, rfl, hk⟩ := hl.exists_middle (k := k) (a := e.stored) (by simp [hm])
  exact ⟨l₁, l₂, hs, hk, hl⟩

theorem ArrayHolds.find_absent (h : ArrayHolds T m) (hm : m k = none) : kvsArrayFindIndex T k = some none := by
  obtain ⟨es, hs, hl⟩ := h
  exact hs.find_absent (hl.apply_eq_none.mp (by simp [hm]))

theorem ArrayHolds.size (h : ArrayHolds T m) : m.size = T.total := by
  obtain ⟨es, hs, hl⟩ := h
  rw [← Map.size_mapVal Entry.stored, hl.size, hs.total]

theorem arrayCreate_holds : ArrayHolds kvsArrayCreate Map.empty :=
  ⟨[], ⟨rfl, Nat.zero_le _, by simp⟩, Lists.nil⟩

/-! ### Reads -/

theorem ArrayHolds.get_present (h : ArrayHolds T m) (hm : m k = some e) : kvsArrayGet T k = some (.str e.value) := by
  obtain ⟨l₁, l₂, hs, hk, -⟩ := h.find_present hm
  exact hs.get_first hk

theorem ArrayHolds.get_absent (h : ArrayHolds T m) (hm : m k = none) : kvsArrayGet T k = some .null := by
  simp [kvsArrayGet, h.find_absent hm]

theorem ArrayHolds.getTimestamp (h : ArrayHolds T m) (hm : m k = some e) :
    kvsArrayGetTimestamp T k = some e.timestamp := by
  obtain ⟨l₁, l₂, hs, hk, -⟩ := h.find_present hm
  have hitem : T.item l₁.length = some (arrayItem (k, e.stored)) := hs.item (by simp)
  simp [kvsArrayGetTimestamp, hs.find_first hk, hitem, arrayItem, Entry.stored]

/-! ### Updates -/

theorem ArrayHolds.set_full (h : ArrayHolds T m) (hfull : kvsArraySize ≤ m.size) :
    kvsArraySetWithTimestamp env T k v t = some (T, -2) := by
  rw [h.size] at hfull
  exact if_pos hfull

theorem ArrayHolds.set_present (h : ArrayHolds T m) (hroom : m.size < kvsArraySize) (hm : m k = some e) :
    kvsArraySetWithTimestamp env T k v t = some (T, 1) := by
  have hsize : ¬kvsArraySize ≤ T.total := by rwa [← h.size, not_le]
  simp [kvsArraySetWithTimestamp, hsize, h.get_present hm]

theorem ArrayHolds.set_absent (h : ArrayHolds T m) (henv : env.Allocates) (hroom : m.size < kvsArraySize)
    (hm : m k = none) :
    ∃ T', kvsArraySetWithTimestamp env T k v t = some (T', 0) ∧ ArrayHolds T' (m.insert k ⟨v, t⟩) := by
  have hget := h.get_absent hm
  rw [h.size] at hroom
  obtain ⟨es, hs, hl⟩ := h
  have hhole := holeLoop_none (p := []) hs
  rw [← hs.total, List.length_nil] at hhole
  have hlt : es.length < kvsArraySize := hs.total ▸ hroom
  refine ⟨_, ?_, es ++ [(k, .str v, t)], hs.push hlt, ?_⟩
  · simp only [kvsArraySetWithTimestamp, Option.bind_eq_bind]
    rw [if_neg (Nat.not_le.mpr hroom), hget, Option.bind_some, if_neg (by simp), if_neg (by simp [henv 0]),
      if_neg (by simp [henv 1]), hhole, Option.bind_some]
    simp only
    rw [if_pos hroom, setItem_eq hroom, Option.bind_some, hs.total]
    rfl
  · rw [Map.mapVal_insert]
    rw [← List.append_nil es] at hl
    exact hl.insert (by simp [hm])

theorem ArrayHolds.set_keeps {T' : KvArray} {n : Int} (h : ArrayHolds T m)
    (hs : kvsArraySetWithTimestamp env T k v t = some (T', n)) : ∃ m', ArrayHolds T' m' := by
  obtain ⟨es, hst, hl⟩ := id h
  rcases hst.set hs with ⟨-, rfl⟩ | ⟨-, hget, h'⟩
  · exact ⟨m, h⟩
  · have hm : m k = none := by
      cases hm : m k with
      | none => rfl
      | some e =>
        rw [h.get_present hm] at hget
        cases hget
    refine ⟨m.insert k ⟨v, t⟩, _, h', ?_⟩
    rw [Map.mapVal_insert]
    rw [← List.append_nil es] at hl
    exact hl.insert (by simp [hm])

theorem ArrayHolds.modify_present (h : ArrayHolds T m) (henv : env.Allocates) (hm : m k = some e) :
    ∃ T', kvsArrayModifyWithTimestamp env T k v t = some (T', 0) ∧ ArrayHolds T' (m.insert k ⟨v, t⟩) := by
  obtain ⟨l₁, l₂, hs, hk, hl⟩ := h.find_present hm
  obtain ⟨T', b, n, hmodify, h', -, hb⟩ := hs.modify hk (by simp [Entry.stored]) env v t
  obtain ⟨rfl, rfl⟩ := hb (henv 0)
  refine ⟨T', hmodify, _, h', ?_⟩
  rw [Map.mapVal_insert]
  exact hl.update

theorem ArrayHolds.modify_absent (h : ArrayHolds T m) (hm : m k = none) :
    kvsArrayModifyWithTimestamp env T k v t = some (T, if m.size = 0 then -2 else -4) := by
  rw [h.size]
  simp only [kvsArrayModifyWithTimestamp, Option.bind_eq_bind]
  rw [h.find_absent hm, Option.bind_some]
  split <;> rfl

/-! ### Deletion -/

theorem ArrayHolds.delete_present (h : ArrayHolds T m) (hm : m k = some e) :
    ∃ T', kvsArrayDelete T k = some (T', 0) ∧ ArrayHolds T' (m.erase k) := by
  obtain ⟨l₁, l₂, hs, hk, hl⟩ := h.find_present hm
  obtain ⟨T', es', hdelete, h', hperm⟩ := hs.delete hk (by simp [Entry.stored])
  have herase := hl.erase
  rw [← Map.mapVal_erase] at herase
  exact ⟨T', hdelete, es', h', herase.perm hperm⟩

theorem ArrayHolds.delete_absent (h : ArrayHolds T m) (hm : m k = none) : kvsArrayDelete T k = some (T, 1) := by
  simp [kvsArrayDelete, h.find_absent hm]

end Calls

/-! ### The engine -/

theorem arrayLaws : arrayEngine.Laws arrayAnswers ArrayHolds AnyString AnyString where
  set_eq _ _ _ _ := rfl
  modify_eq _ _ _ _ := rfl
  set_full {env T m k v t n} h _ _ hfull := by
    simp only [arrayAnswers] at hfull
    split at hfull
    · next hsize =>
      cases hfull
      exact h.set_full hsize
    · cases hfull
  set_present h _ _ hroom hm := h.set_present (by simpa [arrayAnswers] using hroom) hm
  set_absent h _ _ henv hroom hm := h.set_absent henv (by simpa [arrayAnswers] using hroom) hm
  modify_present h _ _ henv hm := h.modify_present henv hm
  modify_absent h _ _ hm := h.modify_absent hm
  get_present h _ hm := h.get_present hm
  get_absent h _ hm := h.get_absent hm
  exist_present h _ hm := by simp [arrayEngine, kvsArrayExist, h.get_present hm]
  exist_absent h _ hm := by simp [arrayEngine, kvsArrayExist, h.get_absent hm, arrayAnswers]
  count h := by simp [arrayEngine, kvsArrayCount, h.size]
  getTimestamp h _ hm := h.getTimestamp hm

theorem arraySetKeeps : arrayEngine.SetKeeps ArrayHolds AnyString AnyString := fun h _ _ hs => h.set_keeps hs

theorem arrayDeleteLaws : arrayEngine.DeleteLaws arrayAnswers View.entries ArrayHolds AnyString where
  present {T m k e} h _ hm := by
    obtain ⟨T', hs, h'⟩ := h.delete_present hm
    exact ⟨T', m.erase k, hs, h', by simp [View.entries]⟩
  absent h _ hm := h.delete_absent hm

end KvStore
