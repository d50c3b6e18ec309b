import KvStore.Range
import KvStore.Theorems.ArrayEngine
import KvStore.Theorems.HashEngine
import KvStore.Theorems.SkiptableSave

/-! What `kvs_*_get_all` and `kvs_*_range` read from a store that holds a map: all of its entries, and those in a
    range of keys in the order of the keys. -/

namespace KvStore
open FiniteMap

/-- The part of a map whose keys lie between two keys. -/
def between (m : Map CString Entry) (a b : CString) : Map CString Entry := fun k => if a ≤ k ∧ k ≤ b then m k else none

/-- The item of an entry. -/
def item (e : CString × Entry) : KvsItem := ⟨e.1, e.2.value, e.2.timestamp⟩

/-- An entry as the stores keep it. -/
def storedPair (e : CString × Entry) : CString × CharPtr × UInt64 := (e.1, e.2.stored)

/-- The keys increase. -/
def Increasing (es : List (CString × Entry)) : Prop := es.Pairwise fun a b => a.1 < b.1

/-- The key and the value of the entry are both of a kind. -/
def EntryOf (string : CString → Prop) (e : CString × Entry) : Prop := string e.1 ∧ string e.2.value

instance (string : CString → Prop) [DecidablePred string] : DecidablePred (EntryOf string) := fun _ => instDecidableAnd

/-- So are those of all entries of the map. -/
def MapOf (string : CString → Prop) (m : Map CString Entry) : Prop := ∀ k e, m k = some e → EntryOf string (k, e)

/-- A string whose buffer, which ends with the terminator, has at least the bytes of a pointer. -/
def Long (s : CString) : Prop := 7 ≤ s.strlen

instance : DecidablePred AnyString := fun _ => isTrue trivial

instance : DecidablePred Long := fun s => Nat.decLe 7 s.strlen

/-- What the functions return for a store that holds the map `m`, when allocations succeed: the copies, if all strings
    to copy are of a kind, and else there is a fault. -/
structure Scan.Laws {σ : Type} (S : Scan σ) (Holds : σ → Map CString Entry → Prop) (string : CString → Prop)
    [DecidablePred string] : Prop where
  getAll : ∀ {env s m}, Holds s m → env.Allocates →
    ∃ es, Lists es m ∧ S.getAll env s = if ∀ e ∈ es, EntryOf string e then some (0, es.map item) else none
  reversed : ∀ {env s a b}, b < a → S.range env s a b = some (-2, [])
  range : ∀ {env s m a b}, Holds s m → env.Allocates → a ≤ b →
    ∃ es n, Lists es (between m a b) ∧ Increasing es ∧ 0 < n ∧ S.range env s a b =
      if ∀ e ∈ es, EntryOf string e then some (if es = [] then n else 0, es.map item) else none

section Lists
variable {es es' : List (CString × Entry)} {m : Map CString Entry} {a b k : CString}

theorem mapOf_iff {string : CString → Prop} (hl : Lists es m) : (∀ e ∈ es, EntryOf string e) ↔ MapOf string m :=
  ⟨fun h k e hm => h (k, e) ((hl.mem k e).mpr hm), fun h e he => h e.1 e.2 ((hl.mem e.1 e.2).mp he)⟩

@[simp] theorem inRange_eq_true : inRange a b k = true ↔ a ≤ k ∧ k ≤ b := by
  simp [inRange]

theorem lists_between (hl : Lists es m) (a b : CString) :
    Lists (es.filter fun e => inRange a b e.1) (between m a b) where
  nodup := hl.nodup.sublist (List.filter_sublist.map _)
  mem k e := by
    rw [List.mem_filter, hl.mem, inRange_eq_true]
    by_cases h : a ≤ k ∧ k ≤ b <;> simp [between, h]

theorem mapOf_empty (string : CString → Prop) : MapOf string Map.empty := fun _ _ h => by cases h

theorem MapOf.insert {string : CString → Prop} {v : CString} {t : UInt64} (h : MapOf string m) (hk : string k)
    (hv : string v) : MapOf string (m.insert k ⟨v, t⟩) := by
  intro j e he
  by_cases hj : j = k
  · subst hj
    rw [Map.insert_self] at he
    obtain rfl := Option.some.inj he
    exact ⟨hk, hv⟩
  · rw [Map.insert_of_ne hj] at he
    exact h j e he

theorem MapOf.between {string : CString → Prop} (h : MapOf string m) (a b : CString) : MapOf string (between m a b) := by
  intro k e hm
  simp only [KvStore.between, Option.ite_none_right_eq_some] at hm
  exact h k e hm.2

/-- The entries behind what a store keeps. -/
theorem exists_storedPair {bs : List (CString × CharPtr × UInt64)} (h : Lists bs (m.mapVal Entry.stored)) :
    ∃ es, bs = es.map storedPair ∧ Lists es m := h.exists_of_mapVal

/-- The sort by keys. -/
theorem sortItems_map (es : List (CString × Entry)) (hnd : (es.map Prod.fst).Nodup) :
    ∃ es', es'.Perm es ∧ Increasing es' ∧ sortItems (es.map item) = es'.map item := by
  set le : CString × Entry → CString × Entry → Bool := fun a b => decide (a.1 ≤ b.1) with hle
  have hperm : (es.mergeSort le).Perm es := List.mergeSort_perm es le
  have htrans : ∀ a b c : CString × Entry, le a b = true → le b c = true → le a c = true := by
    intro a b c hab hbc
    simp only [hle, decide_eq_true_eq] at hab hbc ⊢
    exact hab.trans hbc
  have htotal : ∀ a b : CString × Entry, (le a b || le b a) = true := by
    intro a b
    simpa [hle] using le_total a.1 b.1
  have hsorted := List.pairwise_mergeSort htrans htotal es
  refine ⟨es.mergeSort le, hperm, ?_, ?_⟩
  · have hne : (es.mergeSort le).Pairwise fun a b => a.1 ≠ b.1 :=
      List.pairwise_map.mp ((hperm.map Prod.fst).nodup_iff.mpr hnd)
    refine (hsorted.and hne).imp fun hab => ?_
    exact lt_of_le_of_ne (by simpa [hle] using hab.1) hab.2
  · rw [sortItems, List.map_mergeSort]
    intro a _ b _
    simp [hle, item]

end Lists

/-! ### What is copied -/

section Laws
variable {σ : Type} {S : Scan σ} {Holds : σ → Map CString Entry → Prop} {string : CString → Prop}
  [DecidablePred string] {env : Env} {s : σ} {m : Map CString Entry} {a b : CString}

theorem Scan.Laws.getAll_of (L : S.Laws Holds string) (h : Holds s m) (henv : env.Allocates) (hm : MapOf string m) :
    ∃ es, Lists es m ∧ S.getAll env s = some (0, es.map item) := by
  obtain ⟨es, hl, hall⟩ := L.getAll h henv
  exact ⟨es, hl, hall.trans (if_pos ((mapOf_iff hl).mpr hm))⟩

theorem Scan.Laws.getAll_none (L : S.Laws Holds string) (h : Holds s m) (henv : env.Allocates)
    (hm : ¬MapOf string m) : S.getAll env s = none := by
  obtain ⟨es, hl, hall⟩ := L.getAll h henv
  exact hall.trans (if_neg (mt (mapOf_iff hl).mp hm))

theorem Scan.Laws.range_of (L : S.Laws Holds string) (h : Holds s m) (henv : env.Allocates) (hab : a ≤ b)
    (hm : MapOf string (KvStore.between m a b)) : ∃ es n, Lists es (KvStore.between m a b) ∧ Increasing es ∧ 0 < n ∧
      S.range env s a b = some (if es = [] then n else 0, es.map item) := by
  obtain ⟨es, n, hl, hinc, hn, hrange⟩ := L.range h henv hab
  exact ⟨es, n, hl, hinc, hn, hrange.trans (if_pos ((mapOf_iff hl).mpr hm))⟩

theorem Scan.Laws.range_none (L : S.Laws Holds string) (h : Holds s m) (henv : env.Allocates) (hab : a ≤ b)
    (hm : ¬MapOf string (KvStore.between m a b)) : S.range env s a b = none := by
  obtain ⟨es, n, hl, -, -, hrange⟩ := L.range h henv hab
  exact hrange.trans (if_neg (mt (mapOf_iff hl).mp hm))

end Laws

/-! ### The copying loops -/

/-- The strings that are copied are those of a kind. -/
def CopiesString (cleared : CString → Nat) (string : CString → Prop) [DecidablePred string] : Prop :=
  ∀ s, copyString cleared s = if string s then some s else none

theorem clearString_copies : CopiesString clearString AnyString := fun s => by
  simp [copyString, clearString, AnyString]

theorem clearPointer_copies : CopiesString clearPointer Long := fun s => by
  simp [copyString, clearPointer, Long]

theorem clearNothing_copies : CopiesString clearNothing AnyString := fun s => by
  simp [copyString, clearNothing, AnyString]

/-- The copy of an entry of a kind succeeds as long as the array has room for it. -/
def Copies (copy : List KvsItem → CString → CharPtr → UInt64 → Option Copied) (size : Int) (string : CString → Prop)
    [DecidablePred string] : Prop :=
  ∀ items (e : CString × Entry), (items.length : Int) < size → copy items e.1 (.str e.2.value) e.2.timestamp =
    if EntryOf string e then some (.ok (items ++ [item e])) else none

theorem copies_copyItem {env : Env} {cleared : CString → Nat} {string : CString → Prop} [DecidablePred string]
    (hc : CopiesString cleared string) (henv : env.Allocates) (used : Nat) (err errValue size : Int) :
    Copies (copyItem cleared env used err errValue size) size string := by
  intro items e hlt
  have h₁ : env.alloc (used + 2 * items.length) = true := henv _
  have h₂ : env.alloc (used + 2 * items.length + 1) = true := henv _
  simp only [copyItem, not_le.mpr hlt, if_false, h₁, h₂, Bool.true_eq_false, CharPtr.deref, Option.bind_eq_bind,
    Option.bind_some, hc e.1, hc e.2.value, EntryOf]
  by_cases hk : string e.1 <;> by_cases hv : string e.2.value <;> simp [hk, hv, item]

section Loops
variable {copy : List KvsItem → CString → CharPtr → UInt64 → Option Copied} {p : CString → Bool}
  {es pre : List (CString × Entry)} {items : List KvsItem} {size : Int} {string : CString → Prop} [DecidablePred string]

/-- What a loop over the entries `es` comes to that copies them behind `items`. -/
def copyAll (string : CString → Prop) [DecidablePred string] (items : List KvsItem) (es : List (CString × Entry)) :
    Option Copied :=
  if ∀ e ∈ es, EntryOf string e then some (.ok (items ++ es.map item)) else none

@[simp] theorem copyAll_nil : copyAll string items [] = some (.ok items) := by
  simp [copyAll]

theorem copyAll_cons (e : CString × Entry) (es : List (CString × Entry)) : copyAll string items (e :: es) =
    if EntryOf string e then copyAll string (items ++ [item e]) es else none := by
  simp only [copyAll, List.forall_mem_cons, List.map_cons, List.append_assoc, List.singleton_append]
  by_cases he : EntryOf string e
  · simp only [he, true_and, if_true]
  · simp only [he, false_and, if_false]

theorem copyAll_bind {β : Type} (f : Copied → Option β) (es : List (CString × Entry)) :
    (copyAll string [] es).bind f = if ∀ e ∈ es, EntryOf string e then f (.ok (es.map item)) else none := by
  rw [copyAll]
  split <;> rfl

theorem copyAll_map {β : Type} (f : Copied → β) (es : List (CString × Entry)) :
    (copyAll string [] es).map f = if ∀ e ∈ es, EntryOf string e then some (f (.ok (es.map item))) else none := by
  rw [copyAll]
  split <;> rfl

/-- The loop with the copy of the first entry before it. -/
theorem Copies.bind (hc : Copies copy size string) (e : CString × Entry) (h : (items.length : Int) < size)
    {rest : Copied → Option Copied} (hrest : rest (.ok (items ++ [item e])) = copyAll string (items ++ [item e]) es) :
    (copy items e.1 (.str e.2.value) e.2.timestamp).bind rest = copyAll string items (e :: es) := by
  rw [hc items e h, copyAll_cons]
  by_cases he : EntryOf string e
  · rw [if_pos he, if_pos he, Option.bind_some, hrest]
  · rw [if_neg he, if_neg he, Option.bind_none]

theorem arrayCopyLoop_eq {T : KvArray} (hc : Copies copy size string) (h : T.Stores ((pre ++ es).map storedPair))
    (hsize : (items.length + (es.filter fun e => p e.1).length : Int) ≤ size) :
    arrayCopyLoop copy p T es.length pre.length items = copyAll string items (es.filter fun e => p e.1) := by
  induction es generalizing pre items with
  | nil => simp [arrayCopyLoop]
  | cons e es ih =>
    have hitem : T.item pre.length = some (arrayItem (storedPair e)) := h.item (by simp)
    have hkey : (arrayItem (storedPair e)).key = .str e.1 := rfl
    have hrest : T.Stores (((pre ++ [e]) ++ es).map storedPair) := by rwa [List.append_assoc]
    simp only [List.length_cons, arrayCopyLoop, hitem, Option.bind_eq_bind, Option.bind_some, hkey]
    by_cases hp : p e.1 = true
    · rw [List.filter_cons_of_pos (by simpa using hp)] at hsize ⊢
      simp only [List.length_cons, Nat.cast_add, Nat.cast_one] at hsize
      have hlen : ((items ++ [item e]).length + (es.filter fun e => p e.1).length : Int) ≤ size := by
        simp only [List.length_append, List.length_singleton, Nat.cast_add, Nat.cast_one]
        omega
      have hrec := ih hrest hlen
      rw [List.length_append, List.length_singleton] at hrec
      rw [if_pos hp]
      exact hc.bind e (by omega) hrec
    · rw [List.filter_cons_of_neg (by simpa using hp)] at hsize ⊢
      have hrec := ih hrest hsize
      rw [List.length_append, List.length_singleton] at hrec
      simp [hp, hrec]

theorem arrayMatchLoop_eq {T : KvArray} {n : Nat} (h : T.Stores ((pre ++ es).map storedPair)) :
    arrayMatchLoop p T es.length pre.length n = some (n + (es.filter fun e => p e.1).length) := by
  induction es generalizing pre n with
  | nil => simp [arrayMatchLoop]
  | cons e es ih =>
    have hitem : T.item pre.length = some (arrayItem (storedPair e)) := h.item (by simp)
    have hkey : (arrayItem (storedPair e)).key = .str e.1 := rfl
    have hrest : T.Stores (((pre ++ [e]) ++ es).map storedPair) := by rwa [List.append_assoc]
    have hrec := fun n => ih (n := n) hrest
    simp only [List.length_append, List.length_singleton] at hrec
    simp only [List.length_cons, arrayMatchLoop, hitem, Option.bind_eq_bind, Option.bind_some, hkey, hrec]
    by_cases hp : p e.1 = true
    · simp [hp, Nat.add_assoc, Nat.add_comm 1]
    · simp [hp]

theorem hashCopyLoop_eq (hc : Copies copy size string) {nodes : List HashNode} :
    ∀ {es : List (CString × Entry)} {items : List KvsItem}, nodes.map HashNode.entry = es.map storedPair →
      (items.length + es.length : Int) ≤ size → hashCopyLoop copy nodes items = copyAll string items es := by
  induction nodes with
  | nil =>
    intro es items h _
    rw [List.map_nil, eq_comm, List.map_eq_nil_iff] at h
    simp [hashCopyLoop, h]
  | cons node nodes ih =>
    intro es items h hsize
    cases es with
    | nil => cases h
    | cons e es =>
      obtain ⟨hnode, hrest⟩ := List.cons.inj h
      simp only [List.length_cons, Nat.cast_add, Nat.cast_one] at hsize
      have hk : node.key = e.1 := congrArg Prod.fst hnode
      have hv : node.value = .str e.2.value := congrArg (fun b : CString × CharPtr × UInt64 => b.2.1) hnode
      have ht : node.timestamp = e.2.timestamp := congrArg (fun b : CString × CharPtr × UInt64 => b.2.2) hnode
      have hlen : ((items ++ [item e]).length + es.length : Int) ≤ size := by
        simp only [List.length_append, List.length_singleton, Nat.cast_add, Nat.cast_one]
        omega
      rw [hashCopyLoop, hk, hv, ht]
      exact hc.bind e (by omega) (ih hrest hlen)

end Loops

/-! ### The array -/

section Array
variable {env : Env} {T : KvArray} {m : Map CString Entry} {a b : CString}

theorem ArrayHolds.getAll (h : ArrayHolds T m) (henv : env.Allocates) : ∃ es, Lists es m ∧
    kvsArrayGetAll env T = if ∀ e ∈ es, EntryOf AnyString e then some (0, es.map item) else none := by
  obtain ⟨_, hs, hl⟩ := h
  obtain ⟨es, rfl, hes⟩ := exists_storedPair hl
  refine ⟨es, hes, ?_⟩
  have htotal : T.total = es.length := by simpa using hs.total
  by_cases hnil : es = []
  · simp [kvsArrayGetAll, htotal, hnil]
  · have hpos : es.length ≠ 0 := fun h => hnil (List.length_eq_zero_iff.mp h)
    have hcopies := copies_copyItem clearString_copies henv 1 (-1) (-1) T.total
    have hloop := @arrayCopyLoop_eq _ (fun _ => true) es [] [] T.total AnyString _ T hcopies hs (by simp [htotal])
    rw [htotal] at hloop
    have h0 : env.alloc 0 = true := henv 0
    simp only [List.length_nil, List.filter_true] at hloop
    simp only [kvsArrayGetAll, htotal, hpos, h0, hloop, Bool.true_eq_false, if_false, copyAll_map, finishItems]

theorem ArrayHolds.range (h : ArrayHolds T m) (henv : env.Allocates) (hab : a ≤ b) :
    ∃ es n, Lists es (between m a b) ∧ Increasing es ∧ 0 < n ∧ kvsArrayRange env T a b =
      if ∀ e ∈ es, EntryOf AnyString e then some (if es = [] then n else 0, es.map item) else none := by
  obtain ⟨_, hs, hl⟩ := h
  obtain ⟨es, rfl, hes⟩ := exists_storedPair hl
  have hfil := lists_between hes a b
  obtain ⟨es', hperm, hinc, hsort⟩ := sortItems_map (es.filter fun e => inRange a b e.1) hfil.nodup
  refine ⟨es', 1, hfil.perm hperm.symm, hinc, Int.one_pos, ?_⟩
  have htotal : T.total = es.length := by simpa using hs.total
  have hmatch := @arrayMatchLoop_eq (inRange a b) es [] T 0 hs
  have hcopies := copies_copyItem clearString_copies henv 1 (-4) (-5) (es.filter fun e => inRange a b e.1).length
  have hloop := @arrayCopyLoop_eq _ (inRange a b) es [] [] _ AnyString _ T hcopies hs (by simp)
  have hrev : ¬0 < strcmp a b := by simpa using hab
  have h0 : env.alloc 0 = true := henv 0
  simp only [List.length_nil, Nat.zero_add] at hmatch hloop
  simp only [kvsArrayRange, hrev, if_false, htotal, hmatch, Option.bind_eq_bind, Option.bind_some,
    List.length_eq_zero_iff]
  by_cases hnil : es.filter (fun e => inRange a b e.1) = []
  · have hnil' : es' = [] := List.perm_nil.mp (hnil ▸ hperm)
    simp [hnil, hnil']
  · have hnil' : es' ≠ [] := fun h => hnil (List.nil_perm.mp (h ▸ hperm))
    simp only [hnil, hnil', h0, hloop, if_false, Bool.true_eq_false, copyAll_bind, Except.map, hsort, finishItems,
      hperm.mem_iff]

theorem arrayScanLaws : arrayScan.Laws ArrayHolds AnyString where
  getAll h henv := h.getAll henv
  reversed h := by simp [arrayScan, kvsArrayRange, h]
  range h henv hab := h.range henv hab

end Array

/-! ### The hash table -/

section Hash
variable {env : Env} {H : Hash} {m : Map CString Entry} {a b : CString}

theorem HashHolds.nodes (h : HashHolds H m) :
    ∃ es, H.nodes.map HashNode.entry = es.map storedPair ∧ Lists es m ∧ H.count = es.length := by
  obtain ⟨es, hes, hl⟩ := exists_storedPair h.lists
  refine ⟨es, ?_, hl, ?_⟩
  · rw [← hes, Hash.nodes, h.maxSlots, Hash.entries, List.map_flatMap]
    rfl
  · rw [h.count, hes, List.length_map]

theorem HashHolds.getAll (h : HashHolds H m) (henv : env.Allocates) : ∃ es, Lists es m ∧
    kvsHashGetAll env H = if ∀ e ∈ es, EntryOf Long e then some (0, es.map item) else none := by
  obtain ⟨es, hnodes, hl, hcount⟩ := h.nodes
  refine ⟨es, hl, ?_⟩
  have hcopies := copies_copyItem clearPointer_copies henv 1 (-3) (-4) es.length
  have hloop := @hashCopyLoop_eq _ _ Long _ hcopies H.nodes es [] hnodes (by simp)
  have h0 : env.alloc 0 = true := henv 0
  by_cases hnil : es = []
  · simp [kvsHashGetAll, kvsHashCount, hcount, hnil]
  · have hpos : es.length ≠ 0 := fun h => hnil (List.length_eq_zero_iff.mp h)
    simp only [kvsHashGetAll, kvsHashCount, hcount, Option.bind_eq_bind, Option.bind_some, Nat.cast_eq_zero, hpos, h0,
      hloop, Bool.true_eq_false, if_false, copyAll_map, finishItems]

theorem HashHolds.range (h : HashHolds H m) (henv : env.Allocates) (hab : a ≤ b) :
    ∃ es n, Lists es (between m a b) ∧ Increasing es ∧ 0 < n ∧ kvsHashRange env H a b =
      if ∀ e ∈ es, EntryOf Long e then some (if es = [] then n else 0, es.map item) else none := by
  obtain ⟨es, hnodes, hl, hcount⟩ := h.nodes
  have hfil := lists_between hl a b
  obtain ⟨es', hperm, hinc, hsort⟩ := sortItems_map (es.filter fun e => inRange a b e.1) hfil.nodup
  refine ⟨es', 1, hfil.perm hperm.symm, hinc, Int.one_pos, ?_⟩
  have hmatched : (H.nodes.filter fun node => inRange a b node.key).map HashNode.entry =
      (es.filter fun e => inRange a b e.1).map storedPair := calc
    (H.nodes.filter fun node => inRange a b node.key).map HashNode.entry
        = (H.nodes.map HashNode.entry).filter (fun e => inRange a b e.1) := by rw [List.filter_map]; rfl
    _ = (es.map storedPair).filter (fun e => inRange a b e.1) := by rw [hnodes]
    _ = (es.filter fun e => inRange a b e.1).map storedPair := by rw [List.filter_map]; rfl
  have hlen : (H.nodes.filter fun node => inRange a b node.key).length =
      (es.filter fun e => inRange a b e.1).length := by
    simpa using congrArg List.length hmatched
  have hcopies := copies_copyItem clearPointer_copies henv 2 (-5) (-6) (es.filter fun e => inRange a b e.1).length
  have hloop := @hashCopyLoop_eq _ _ Long _ hcopies _ _ [] hmatched (by simp)
  have hle := (List.filter_sublist (p := fun e => inRange a b e.1) (l := es)).length_le
  have hrev : ¬0 < strcmp a b := by simpa using hab
  have h0 : env.alloc 0 = true := henv 0
  have h1 : env.alloc 1 = true := henv 1
  have hroom : ¬(es.length : Int) < (es.filter fun e => inRange a b e.1).length := by omega
  simp only [kvsHashRange, hrev, if_false, kvsHashCount, hcount, Option.bind_eq_bind, Option.bind_some, h0, h1,
    hroom, reduceCtorEq, false_and, hlen, hloop]
  by_cases hnil : es.filter (fun e => inRange a b e.1) = []
  · have hnil' : es' = [] := List.perm_nil.mp (hnil ▸ hperm)
    have hnone : H.nodes.filter (fun node => inRange a b node.key) = [] := by
      rw [← List.length_eq_zero_iff, hlen, hnil]
      rfl
    simp [hnone, hnil']
  · have hnil' : es' ≠ [] := fun h => hnil (List.nil_perm.mp (h ▸ hperm))
    have hsome : H.nodes.filter (fun node => inRange a b node.key) ≠ [] := by
      intro h
      rw [h, eq_comm, List.length_nil, List.length_eq_zero_iff] at hlen
      exact hnil hlen
    simp only [hsome, hnil', if_false, copyAll_bind, Except.map, hsort, finishItems, hperm.mem_iff]

theorem hashScanLaws : hashScan.Laws HashHolds Long where
  getAll h henv := h.getAll henv
  reversed h := by simp [hashScan, kvsHashRange, h]
  range h henv hab := h.range henv hab

end Hash

/-! ### The skip list -/

section Skip
variable {env : Env} {T : Skiptable} {L : List SkipCell} {m : Map CString Entry} {a b : CString}
  {copy : List KvsItem → CString → CharPtr → UInt64 → Option Copied} {p stop : CString → Bool}

/-- The pair that a node stores. -/
def skipPair (c : SkipCell) : CString × Entry := (c.key, ⟨c.value, c.timestamp⟩)

/-- The loop copies every selected node, if it does not end before one. -/
theorem WalksTo.copyLoop {size : Int} {string : CString → Prop} [DecidablePred string] (hc : Copies copy size string)
    {q : Ptr} {fuel : Nat} {items : List KvsItem} (h : WalksTo T q L) (hfuel : L.length < fuel)
    (hstop : L.Pairwise fun c d => stop c.key = true → p d.key = false)
    (hsize : (items.length + L.length : Int) ≤ size) :
    skipCopyLoop copy p stop T fuel ((L.map SkipCell.ptr).headD 0) items =
      copyAll string items ((L.map skipPair).filter fun e => p e.1) := by
  induction L generalizing q fuel items with
  | nil =>
    obtain ⟨fuel, rfl⟩ := Nat.exists_eq_succ_of_ne_zero (Nat.ne_zero_of_lt hfuel)
    simp [skipCopyLoop]
  | cons c L ih =>
    obtain ⟨fuel, rfl⟩ := Nat.exists_eq_succ_of_ne_zero (Nat.ne_zero_of_lt hfuel)
    obtain ⟨hne, hnode⟩ := h.2 c List.mem_cons_self
    obtain ⟨hafter, hstop⟩ := List.pairwise_cons.mp hstop
    simp only [List.length_cons, Nat.cast_add, Nat.cast_one] at hsize
    -- the rest of the loop, behind the copy of the node
    have hrest : ∀ {items : List KvsItem}, (items.length + L.length : Int) ≤ size →
        (if stop c.key = true then some (.ok items) else
          (T.forward c.ptr 0).bind fun next => skipCopyLoop copy p stop T fuel next items) =
        copyAll string items ((L.map skipPair).filter fun e => p e.1) := by
      intro items hsize
      by_cases hs : stop c.key = true
      · have hnone : (L.map skipPair).filter (fun e => p e.1) = [] := by
          rw [List.filter_eq_nil_iff]
          intro e he
          obtain ⟨d, hd, rfl⟩ := List.mem_map.mp he
          simpa [skipPair] using hafter d hd hs
        rw [if_pos hs, hnone, copyAll_nil]
      · rw [if_neg hs, h.tail.first, Option.bind_some]
        exact ih h.tail (Nat.lt_of_succ_lt_succ hfuel) hstop hsize
    rw [List.map_cons, List.headD_cons, skipCopyLoop, if_neg hne, hnode, List.map_cons]
    simp only [Option.bind_eq_bind, Option.bind_some, SkipCell.node]
    by_cases hp : p c.key = true
    · rw [if_pos hp, List.filter_cons_of_pos (by simpa [skipPair] using hp)]
      refine hc.bind (skipPair c) (by omega) (hrest ?_)
      simp only [List.length_append, List.length_singleton, Nat.cast_add, Nat.cast_one]
      omega
    · rw [if_neg hp, List.filter_cons_of_neg (by simpa [skipPair] using hp), Option.bind_some]
      exact hrest (by omega)

theorem SkipInv.increasing (h : SkipInv T L) (hnd : (L.map SkipCell.key).Nodup) : Increasing (L.map skipPair) := by
  have hne : L.Pairwise fun c d => c.key ≠ d.key := List.pairwise_map.mp hnd
  exact List.pairwise_map.mpr ((h.sorted.and hne).imp fun hcd => lt_of_le_of_ne hcd.1 hcd.2)

theorem SkipHolds.nodes (h : SkipHolds T m) :
    ∃ L, SkipInv T L ∧ Lists (L.map skipPair) m ∧ Increasing (L.map skipPair) := by
  obtain ⟨L, hinv, hl⟩ := h
  have hnd := hl.nodup
  rw [List.map_map] at hnd
  exact ⟨L, hinv, skip_lists hl, hinv.increasing hnd⟩

theorem SkipHolds.getAll (h : SkipHolds T m) (henv : env.Allocates) : ∃ es, Lists es m ∧
    kvsSkiptableGetAll env T = if ∀ e ∈ es, EntryOf AnyString e then some (0, es.map item) else none := by
  obtain ⟨L, hinv, hl, -⟩ := h.nodes
  refine ⟨L.map skipPair, hl, ?_⟩
  have hwalk := hinv.rep.walksTo
  have hcopies := copies_copyItem clearNothing_copies henv 1 (-3) (-4) L.length
  have hloop := @WalksTo.copyLoop T L _ (fun _ => true) (fun _ => false) L.length AnyString _ hcopies _ T.fuel []
    hwalk (Nat.lt_succ_of_lt hinv.rep.length_lt) (List.pairwise_of_forall fun _ _ h => by cases h) (by simp)
  have h0 : env.alloc 0 = true := henv 0
  by_cases hnil : L = []
  · simp [kvsSkiptableGetAll, kvsSkiptableCount, hinv.size, hnil]
  · have hpos : L.length ≠ 0 := fun h => hnil (List.length_eq_zero_iff.mp h)
    rw [List.filter_true] at hloop
    simp only [kvsSkiptableGetAll, kvsSkiptableCount, hinv.size, Option.bind_eq_bind, Option.bind_some, hwalk.first,
      hloop, h0, Nat.cast_eq_zero, hpos, Bool.true_eq_false, if_false, copyAll_bind, finishItems]

theorem SkipHolds.range (h : SkipHolds T m) (henv : env.Allocates) (hab : a ≤ b) :
    ∃ es n, Lists es (between m a b) ∧ Increasing es ∧ 0 < n ∧ kvsSkiptableRange env T a b =
      if ∀ e ∈ es, EntryOf AnyString e then some (if es = [] then n else 0, es.map item) else none := by
  obtain ⟨L, hinv, hl, hinc⟩ := h.nodes
  refine ⟨_, 1, lists_between hl a b, hinc.sublist List.filter_sublist, Int.one_pos, ?_⟩
  have hwalk := hinv.rep.walksTo
  have hstop : L.Pairwise fun c d =>
      decide (strcmp c.key b > 0) = true → inRange a b d.key = false := by
    refine (List.pairwise_map.mp hinc).imp fun {c d} hcd hc => ?_
    have hbd : b < d.key := lt_trans (strcmp_pos.mp (of_decide_eq_true hc)) hcd
    exact Bool.eq_false_iff.mpr fun hin => absurd (inRange_eq_true.mp hin).2 (not_le.mpr hbd)
  have hcopies := copies_copyItem clearNothing_copies henv 1 (-1) (-1) L.length
  have hloop := @WalksTo.copyLoop T L _ (inRange a b) (fun key => decide (strcmp key b > 0)) L.length AnyString _
    hcopies _ T.fuel [] hwalk (Nat.lt_succ_of_lt hinv.rep.length_lt) hstop (by simp)
  have hrev : ¬0 < strcmp a b := by simpa using hab
  have h0 : env.alloc 0 = true := henv 0
  simp only [kvsSkiptableRange, gt_iff_lt, hrev, if_false, h0, hinv.size, Option.bind_eq_bind, Option.bind_some,
    hwalk.first, hloop, Bool.true_eq_false, copyAll_bind, List.map_eq_nil_iff]
  by_cases hnil : (L.map skipPair).filter (fun e => inRange a b e.1) = [] <;> simp [hnil]

theorem skiptableScanLaws : skiptableScan.Laws SkipHolds AnyString where
  getAll h henv := h.getAll henv
  reversed h := by simp [skiptableScan, kvsSkiptableRange, h]
  range h henv hab := h.range henv hab

end Skip

end KvStore
