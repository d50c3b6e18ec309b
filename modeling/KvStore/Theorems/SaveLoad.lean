import KvStore.Theorems.ArrayEngine
import KvStore.Theorems.HashEngine
import KvStore.Theorems.Rbtree
import KvStore.Theorems.Save
import Mathlib.Data.List.Forall2

/-! # Saving and loading a store

What the array, the red-black tree and the hash engine write for a store that holds a map is the file of its
entries, so that loading it into a new store yields the same map. -/

namespace KvStore
open RedBlack FiniteMap

/-! ### What the engines write -/

/-- The record of a stored entry. -/
def entryRecord (e : CString × CharPtr × UInt64) : List UInt8 × List UInt8 :=
  (e.1.object 1, match e.2.1 with
    | .str v => v.object 1
    | .null => []
    | .freed => [])

/-- The entry has a value, and its strings fit into a record. -/
def EntryStorable (e : CString × CharPtr × UInt64) : Prop := ∃ v, e.2.1 = .str v ∧ Storable 1 (e.1, v)

def entryBytes (e : CString × CharPtr × UInt64) : List UInt8 := recordBytes (entryRecord e)

section Write
variable {es : List (CString × CharPtr × UInt64)} {e : CString × CharPtr × UInt64} {out : OutFile} {err : Int}

theorem saveRecord_entry (h : EntryStorable e) :
    saveRecord .good err 1 out (.str e.1) e.2.1 = some (out.append (entryBytes e) 4, 0) := by
  obtain ⟨k, p, t⟩ := e
  obtain ⟨v, hv, hkw, hvw⟩ := h
  simp only at hv hkw hvw
  subst hv
  exact saveRecord_good (Nat.le_refl 1) hkw hvw

theorem entries_fileBytes : fileBytes (es.map entryRecord) = IntCodec.int32 es.length ++ es.flatMap entryBytes := by
  rw [fileBytes, List.length_map, List.flatMap_map]
  rfl

theorem saveArrayItem_eq {disk : Disk} {T : KvArray} {i : Nat} {item : ArrayItem} (h : T.item i = some item) :
    saveArrayItem disk T out i = saveRecord disk (-3) 1 out item.key item.value := by
  rw [saveArrayItem, h]
  rfl

/-- `kvs_array_save` is the loop over the items behind the count. -/
theorem kvsArraySave_eq (disk : Disk) (T : KvArray) : kvsArraySave disk T =
    saveFile disk T.total fun out => saveAll (saveArrayItem disk T) out (List.range T.total) := rfl

theorem KvArray.Stores.save {T : KvArray} (h : T.Stores es) (hes : ∀ e ∈ es, EntryStorable e) :
    kvsArraySave .good T = some (fileBytes (es.map entryRecord), 0) := by
  have hitems : List.Forall₂ (fun i e => ∀ out, saveArrayItem .good T out i = some (out.append (entryBytes e) 4, 0))
      (List.range T.total) es := by
    refine List.forall₂_iff_get.mpr ⟨by simp [h.total], fun i hi hi' out => ?_⟩
    rw [List.get_eq_getElem, List.getElem_range, saveArrayItem_eq (h.item (List.getElem?_eq_getElem hi'))]
    exact saveRecord_entry (hes _ (List.getElem_mem hi'))
  rw [entries_fileBytes, ← h.total, kvsArraySave_eq]
  exact saveFile_good fun out => saveAll_good hitems

/-- A chain of nodes. -/
theorem saveChain {chain : List HashNode} (h : ∀ n ∈ chain, EntryStorable n.entry) :
    saveAll (saveHashNode .good) out chain =
      some (out.append ((chain.map HashNode.entry).flatMap entryBytes) (4 * chain.length), 0) := by
  have hnodes : List.Forall₂ (fun n n' => ∀ out, saveHashNode .good out n =
      some (out.append (entryBytes (HashNode.entry n')) 4, 0)) chain chain :=
    List.forall₂_same.mpr fun n hn out => saveRecord_entry (h n hn)
  rw [saveAll_good hnodes, List.flatMap_map]
  simp [Nat.mul_comm]

theorem kvsHashSave_eq (disk : Disk) (H : Hash) : kvsHashSave disk H = saveFile disk H.count fun out =>
    saveAll (fun out i => saveAll (saveHashNode disk) out (H.table i)) out (List.range maxTableSize) := by
  rw [kvsHashSave, kvsHashCount, Option.bind_eq_bind, Option.bind_some]

theorem Hash.save {H : Hash} (hcount : H.count = H.entries.length) (hes : ∀ e ∈ H.entries, EntryStorable e) :
    kvsHashSave .good H = some (fileBytes (H.entries.map entryRecord), 0) := by
  have hchains : List.Forall₂ (fun i j => ∀ out, saveAll (saveHashNode .good) out (H.table i) =
      some (out.append (((H.table j).map HashNode.entry).flatMap entryBytes) (4 * (H.table j).length), 0))
      (List.range maxTableSize) (List.range maxTableSize) := by
    refine List.forall₂_same.mpr fun i hi out => saveChain fun n hn => hes _ ?_
    exact List.mem_flatMap.mpr ⟨i, hi, List.mem_map_of_mem hn⟩
  rw [kvsHashSave_eq, entries_fileBytes, ← hcount, Hash.entries, List.flatMap_assoc]
  exact saveFile_good fun out => saveAll_good hchains

/-- The test that leaves out an empty subtree does not change what is written. -/
theorem saveNode_guard {disk : Disk} {T : Rbtree} {fuel : Nat} (hfuel : 0 < fuel) (p : Ptr) (out : OutFile) :
    (if p ≠ T.nil then kvsRbtreeSaveNodeRecursive disk T fuel p out else some (out, 0)) =
      kvsRbtreeSaveNodeRecursive disk T fuel p out := by
  obtain ⟨fuel, rfl⟩ := Nat.exists_eq_succ_of_ne_zero hfuel.ne'
  by_cases hp : p = T.nil
  · rw [if_neg (not_not.mpr hp), kvsRbtreeSaveNodeRecursive, if_pos hp]
  · rw [if_pos hp]

/-- `kvs_rbtree_save_node_recursive` writes a subtree in preorder. -/
theorem Rep.saveNode {T : Rbtree} {ctx : Ctx Cell} {t : RBTree Cell} {fuel : Nat} (h : Rep T (plug ctx t))
    (hfuel : t.toList.length < fuel) (hes : ∀ e ∈ t.preorder, EntryStorable e.entry) :
    kvsRbtreeSaveNodeRecursive .good T fuel (ptrOf T.nil t) out =
      some (out.append ((t.preorder.map Cell.entry).flatMap entryBytes) (4 * t.preorder.length), 0) := by
  refine Rep.downward (P := fun fuel _ t => ∀ {out}, (∀ e ∈ t.preorder, EntryStorable e.entry) →
      kvsRbtreeSaveNodeRecursive .good T fuel (ptrOf T.nil t) out =
        some (out.append ((t.preorder.map Cell.entry).flatMap entryBytes) (4 * t.preorder.length), 0))
    (fun fuel ctx out _ => ?_) (fun fuel ctx c l e r hpos h ihl ihr out hes => ?_) h hfuel hes
  · simp [kvsRbtreeSaveNodeRecursive, RBTree.preorder, OutFile.append]
  · have F := h.fields (s := .left)
    have he : saveRecord .good (-2) 1 out (.str e.key) e.value = some (out.append (entryBytes e.entry) 4, 0) :=
      saveRecord_entry (hes e List.mem_cons_self)
    have hl := fun out => (saveNode_guard hpos _ out).trans (@ihl out fun e' he' =>
      hes e' (List.mem_cons_of_mem e (List.mem_append_left _ he')))
    have hr := fun out => (saveNode_guard hpos _ out).trans (@ihr out fun e' he' =>
      hes e' (List.mem_cons_of_mem e (List.mem_append_right _ he')))
    rw [kvsRbtreeSaveNodeRecursive, ptrOf_node, if_neg (h.live_mk (s := .left)).1]
    simp -implicitDefEqProofs only [Option.bind_eq_bind, F.key, F.value, F.left, F.right, Side.pick, he, hl, hr,
      Option.bind_some, OutFile.append_append, RBTree.preorder, List.map_cons, List.map_append, List.flatMap_cons,
      List.flatMap_append, List.length_cons, List.length_append, ne_eq, not_true_eq_false, if_false]
    have hwrites : 4 + (4 * l.preorder.length + 4 * r.preorder.length) =
        4 * (l.preorder.length + r.preorder.length + 1) := by omega
    rw [hwrites]

/-- `kvs_rbtree_save` is the walk from the root behind the count. -/
theorem Rep.save_eq {T : Rbtree} {t : RBTree Cell} (h : Rep T t) (disk : Disk) : kvsRbtreeSave disk T =
    saveFile disk (t.toList.length : Int) fun out =>
      kvsRbtreeSaveNodeRecursive disk T T.fuel (ptrOf T.nil t) out := by
  have hrep : Rep T (plug [] t) := h
  rw [kvsRbtreeSave, hrep.count, Option.bind_eq_bind, Option.bind_some, h.linked.root]

theorem Rep.save {T : Rbtree} {t : RBTree Cell} (h : Rep T t) (hes : ∀ e ∈ t.preorder.map Cell.entry, EntryStorable e) :
    kvsRbtreeSave .good T = some (fileBytes ((t.preorder.map Cell.entry).map entryRecord), 0) := by
  have hrep : Rep T (plug [] t) := h
  have hlen : (t.preorder.map Cell.entry).length = t.toList.length := by
    rw [List.length_map, (RBTree.preorder_perm t).length_eq]
  rw [h.save_eq, entries_fileBytes, hlen]
  exact saveFile_good fun out => hrep.saveNode (Nat.lt_succ_of_lt h.length_lt) fun e he =>
    hes _ (List.mem_map_of_mem he)

end Write

/-! ### Round trip -/

section RoundTrip
variable {σ : Type}

/-- The lengths of the stored strings, their terminators included, are values of type `int`. -/
def Engine.StringsFit (E : Engine σ) (s : σ) : Prop :=
  ∀ k v, E.get s k = some (.str v) → k.strlen + 1 < 2147483648 ∧ v.strlen + 1 < 2147483648

/-- The count is a value of type `int`. -/
def Engine.CountFits (E : Engine σ) (s : σ) : Prop := ∀ n, E.count s = some n → n < 2147483648

/-- Every store that calls lead to and that satisfies `cond` is saved without an error, and the file loads into a new
    store as the same map with the same count. -/
def LoadsBack (E : Engine σ) (init : σ) (save : Disk → σ → Option (List UInt8 × Int))
    (load : (Nat → Env) → σ → List UInt8 → Option (σ × Int)) (key : CString → Prop)
    (cond : List Call → σ → Prop) : Prop :=
  ∀ (calls : List Call) (s : σ) (outs : List Ret), (∀ c ∈ calls, c.Strings key AnyString) →
    Run.runs E.exec init calls = some (s, outs) → cond calls s → ∃ file, save .good s = some (file, 0) ∧
      ∀ env : Nat → Env, (∀ n, (env n).Allocates) → ∃ s', load env init file = some (s', 0) ∧
        (∀ k, key k → E.get s' k = E.get s k) ∧ E.count s' = E.count s

variable {E : Engine σ} {A : Answers} {Holds : σ → Map CString Entry → Prop} {key : CString → Prop}

/-- What `save` does to a store of a map: it writes its entries. -/
def SavesEntries (A : Answers) (Holds : σ → Map CString Entry → Prop) (key : CString → Prop)
    (save : Disk → σ → Option (List UInt8 × Int)) : Prop :=
  ∀ {s m}, Holds s m → ∃ es, Lists es (m.mapVal Entry.stored) ∧ (∀ e ∈ es, key e.1) ∧
    (∀ n < es.length, A.full n = none) ∧
    ((∀ e ∈ es, EntryStorable e) → save .good s = some (fileBytes (es.map entryRecord), 0))

/-- Two stores of maps with the same values answer alike. -/
theorem Engine.Laws.answers_eq (L : E.Laws A Holds key AnyString) {s s' : σ} {m m' : Map CString Entry} (h : Holds s m)
    (h' : Holds s' m') (heq : m'.mapVal Entry.value = m.mapVal Entry.value) :
    (∀ k, key k → E.get s' k = E.get s k) ∧ E.count s' = E.count s := by
  constructor
  · intro k hk
    have hval : (m' k).map Entry.value = (m k).map Entry.value := congrFun heq k
    cases hm : m k with
    | none =>
      rw [hm, Option.map_none, Option.map_eq_none_iff] at hval
      rw [L.get_absent h hk hm, L.get_absent h' hk hval]
    | some e =>
      rw [hm, Option.map_some, Option.map_eq_some_iff] at hval
      obtain ⟨e', hm', hval⟩ := hval
      rw [L.get_present h hk hm, L.get_present h' hk hm', hval]
  · rw [L.count h, L.count h', ← Map.size_mapVal Entry.value, heq, Map.size_mapVal]

theorem storable_iff {e : CString × CString} :
    Storable 1 e ↔ e.1.strlen + 1 < 2147483648 ∧ e.2.strlen + 1 < 2147483648 := by
  simp only [Storable, Writable, CString.length_object _ (Nat.le_refl 1)]
  omega

/-- The file of a store whose strings fit. -/
theorem Engine.Laws.saved (L : E.Laws A Holds key AnyString) {s : σ} {m : Map CString Entry}
    {save : Disk → σ → Option (List UInt8 × Int)} (h : Holds s m) (hsave : SavesEntries A Holds key save)
    (hfits : E.StringsFit s) :
    ∃ es, Lists es (m.mapVal Entry.value) ∧ (∀ e ∈ es, key e.1 ∧ AnyString e.2 ∧ Storable 1 e) ∧
      (∀ n < es.length, A.full n = none) ∧ save .good s = some (fileBytes (es.map (storedRecord 1)), 0) := by
  obtain ⟨bs, hbs, hkeys, hroom, hfile⟩ := hsave h
  obtain ⟨es, rfl, hes⟩ := hbs.exists_of_mapVal
  have hkey : ∀ e ∈ es, key e.1 := fun e he => hkeys _ (List.mem_map_of_mem he)
  have hstorable : ∀ e ∈ es, Storable 1 (e.1, e.2.value) := fun e he =>
    storable_iff.mpr (hfits _ _ (L.get_present h (hkey e he) ((hes.mem _ _).mp he)))
  have hrecords : (es.map fun e => (e.1, e.2.stored)).map entryRecord =
      (es.map fun e => (e.1, e.2.value)).map (storedRecord 1) := by
    rw [List.map_map, List.map_map]
    rfl
  refine ⟨es.map fun e => (e.1, e.2.value), hes.mapVal Entry.value, ?_, by simpa using hroom, hrecords ▸ hfile ?_⟩
  · intro b hb
    obtain ⟨e, he, rfl⟩ := List.mem_map.mp hb
    exact ⟨hkey e he, trivial, hstorable e he⟩
  · intro b hb
    obtain ⟨e, he, rfl⟩ := List.mem_map.mp hb
    exact ⟨e.2.value, rfl, hstorable e he⟩

theorem Engine.Laws.loadsBack (L : E.Laws A Holds key AnyString) (D : E.DeleteKeeps Holds key)
    (S : E.SetKeeps Holds key AnyString) {init : σ} (hinit : Holds init Map.empty)
    {save : Disk → σ → Option (List UInt8 × Int)} (hsave : SavesEntries A Holds key save) :
    LoadsBack E init save (KvStore.load E.setBuffers) key
      fun calls s => (∀ c ∈ calls, c.ModifyAllocates) ∧ E.StringsFit s ∧ E.CountFits s := by
  rintro calls s outs hstr hrun ⟨hmod, hfits, hcount⟩
  obtain ⟨m, h⟩ := L.reachable_of_modifyAllocates D S hinit hstr hmod hrun
  obtain ⟨es, hes, hentry, hroom, hfile⟩ := L.saved h hsave hfits
  have hlen : es.length < 2147483648 := by
    have := hcount _ (L.count h)
    rw [← Map.size_mapVal Entry.value, hes.size] at this
    exact_mod_cast this
  refine ⟨_, hfile, fun env henv => ?_⟩
  obtain ⟨s', m', hs', h', hm', -⟩ := L.load hinit hes.nodup hentry hlen hroom henv
  exact ⟨s', hs', L.answers_eq h h' (hm'.unique hes)⟩

end RoundTrip

/-! ### The three engines -/

theorem arraySavesEntries : SavesEntries arrayAnswers ArrayHolds AnyString kvsArraySave := by
  intro T m h
  obtain ⟨es, hs, hl⟩ := h
  refine ⟨es, hl, fun _ _ => trivial, fun n hn => ?_, hs.save⟩
  have hfree : ¬kvsArraySize ≤ n := not_le.mpr (hn.trans_le hs.fits)
  exact if_neg hfree

theorem rbtreeSavesEntries : SavesEntries rbtreeAnswers RbtreeHolds AnyString kvsRbtreeSave := by
  intro T m h
  obtain ⟨t, hi, hl⟩ := h
  exact ⟨t.preorder.map Cell.entry, hl.perm ((RBTree.preorder_perm t).symm.map _), fun _ _ => trivial, fun _ _ => rfl,
    hi.rep.save⟩

theorem hashSavesEntries : SavesEntries hashAnswers HashHolds SlotInRange kvsHashSave := fun h =>
  ⟨_, h.lists, h.slotInRange, fun _ _ => rfl, Hash.save h.count⟩

/-- The array after a `set` of the key to an empty array. -/
def oneItem (k : CString) (v : CharPtr) : KvArray :=
  ⟨Function.update (fun _ => none) 0 (some ⟨.str k, v, 0⟩), 1⟩

theorem oneItem_save (k : CString) (v : CharPtr) :
    kvsArraySave .good (oneItem k v) = saveFile .good 1 fun out => saveAll (saveArrayItem .good (oneItem k v)) out [0] :=
  rfl

theorem oneItem_item (k : CString) (v : CharPtr) : (oneItem k v).item 0 = some ⟨.str k, v, 0⟩ := rfl

theorem oneItem_find (k j : CString) (v : CharPtr) :
    kvsArrayFindIndex (oneItem k v) j = some (if k = j then some 0 else none) := by
  have hloop : kvsArrayFindIndex (oneItem k v) j = arrayFindLoop (oneItem k v) j 1 0 := rfl
  rw [hloop]
  by_cases h : k = j <;> simp [arrayFindLoop, oneItem_item, ArrayItem.hasKey, h]

theorem oneItem_countFits (k : CString) (v : CharPtr) : arrayEngine.CountFits (oneItem k v) := by
  rintro n hn
  have hn : 1 = n := Option.some.inj hn
  omega

/-- A store of a map whose lengths and count fit is saved and loaded back. -/
theorem save_load_identity :
    LoadsBack arrayEngine kvsArrayCreate kvsArraySave kvsArrayLoad AnyString
      (fun calls T => (∀ c ∈ calls, c.ModifyAllocates) ∧ arrayEngine.StringsFit T ∧ arrayEngine.CountFits T) ∧
    LoadsBack rbtreeEngine kvsRbtreeCreate kvsRbtreeSave kvsRbtreeLoad AnyString
      (fun calls T => (∀ c ∈ calls, c.ModifyAllocates) ∧ rbtreeEngine.StringsFit T ∧ rbtreeEngine.CountFits T) ∧
    LoadsBack hashEngine kvsHashCreate kvsHashSave kvsHashLoad SlotInRange
      (fun calls H => (∀ c ∈ calls, c.ModifyAllocates) ∧ hashEngine.StringsFit H ∧ hashEngine.CountFits H) :=
  ⟨arrayLaws.loadsBack arrayDeleteLaws.keeps arraySetKeeps arrayCreate_holds arraySavesEntries,
    rbtreeLaws.loadsBack rbtreeDeleteLaws.keeps rbtreeSetKeeps rbtreeCreate_holds rbtreeSavesEntries,
    hashLaws.loadsBack hashDeleteKeeps hashSetKeeps hashCreate_holds hashSavesEntries⟩

/-- The calls leave two of their three keys in the tree. -/
theorem someCalls_fit : ∃ T outs, Run.runs rbtreeEngine.exec kvsRbtreeCreate someCalls = some (T, outs) ∧
    rbtreeEngine.StringsFit T ∧ rbtreeEngine.CountFits T := by
  obtain ⟨T, hrun, m, h, hm⟩ := rbtree_runs someCalls_ok
  have hab : CString.ofBytes [97] ≠ .ofBytes [98] := by decide
  have hbc : CString.ofBytes [98] ≠ .ofBytes [99] := by decide
  have hac : CString.ofBytes [97] ≠ .ofBytes [99] := by decide
  have hmap : ∀ k, m.mapVal Entry.value k = if k = .ofBytes [97] then some (.ofBytes [4])
      else if k = .ofBytes [99] then some (.ofBytes [3]) else none := by
    intro k
    refine (congrFun hm k).trans ?_
    simp only [someCalls, Run.execs, MapSpec.step, MapSpec.add, MapSpec.replace, rbtreeAnswers, Map.insert, Map.erase,
      Map.empty, View.values, hab, hac, hbc, hab.symm, hac.symm, hbc.symm, if_true, if_false]
    grind
  have hlists : Lists [(.ofBytes [97], .ofBytes [4]), (.ofBytes [99], .ofBytes [3])] (m.mapVal Entry.value) := by
    refine ⟨by decide, fun k v => ?_⟩
    rw [hmap k]
    simp only [List.mem_cons, List.not_mem_nil, or_false, Prod.mk.injEq]
    grind
  refine ⟨T, _, hrun, fun k v hget => ?_, fun n hn => ?_⟩
  · have hmem : (k, v) ∈ [(CString.ofBytes [97], CString.ofBytes [4]), (.ofBytes [99], .ofBytes [3])] := by
      rw [hlists.mem, Map.mapVal_apply]
      cases he : m k with
      | none =>
        rw [rbtreeLaws.get_absent h trivial he] at hget
        cases hget
      | some e =>
        rw [rbtreeLaws.get_present h trivial he] at hget
        exact congrArg some (CharPtr.str.inj (Option.some.inj hget))
    simp only [List.mem_cons, List.not_mem_nil, or_false, Prod.mk.injEq] at hmem
    rcases hmem with ⟨rfl, rfl⟩ | ⟨rfl, rfl⟩ <;> decide
  · have hcount := rbtreeLaws.count h
    rw [← Map.size_mapVal Entry.value, hlists.size, hn] at hcount
    obtain rfl := Option.some.inj hcount
    decide

theorem save_load_identity_someCalls : ∃ T outs file T',
    Run.runs rbtreeEngine.exec kvsRbtreeCreate someCalls = some (T, outs) ∧ kvsRbtreeSave .good T = some (file, 0) ∧
    kvsRbtreeLoad (fun _ => .calm 0) kvsRbtreeCreate file = some (T', 0) ∧
    (∀ k, rbtreeEngine.get T' k = rbtreeEngine.get T k) ∧ rbtreeEngine.count T' = rbtreeEngine.count T := by
  obtain ⟨T, outs, hrun, hstrings, hcount⟩ := someCalls_fit
  have hcalls : ∀ c ∈ someCalls, c.Strings AnyString AnyString := by simp [someCalls, Call.Strings, AnyString]
  have hmod : ∀ c ∈ someCalls, c.ModifyAllocates := by simp [someCalls, Call.ModifyAllocates, Env.calm_allocates]
  obtain ⟨file, hs, hl⟩ := save_load_identity.2.1 _ T outs hcalls hrun ⟨hmod, hstrings, hcount⟩
  obtain ⟨T', hload, hget, hcount'⟩ := hl (fun _ => .calm 0) fun _ => Env.calm_allocates 0
  exact ⟨T, outs, file, T', hrun, hs, hload, fun k => hget k trivial, hcount'⟩

/-! ### Why the conditions are there -/

/-- A string of `n` bytes. -/
def repeated (n : Nat) : CString := ⟨List.replicate n 97, by simp [List.mem_replicate]⟩

/-- The array with one long key. -/
theorem longKey_run (n : Nat) : Run.runs arrayEngine.exec kvsArrayCreate
    [.set (.calm 0) (repeated n) (.ofBytes [98])] = some (oneItem (repeated n) (.str (.ofBytes [98])), [.code 0]) := rfl

/-- The length of this key leaves 1 in an `int`, so that its record holds one byte and no terminator. -/
theorem longKey_load {n : Nat} (hn : n = UInt32.size) {file : List UInt8}
    (hs : kvsArraySave .good (oneItem (repeated n) (.str (.ofBytes [98]))) = some (file, 0)) :
    kvsArrayLoad (fun _ => .calm 0) kvsArrayCreate file = none := by
  have hlen : (((repeated n).strlen + 1 : Nat) : Int).bmod UInt32.size = (1 : Nat) := by
    rw [repeated, CString.strlen, List.length_replicate, hn]
    decide
  have hitems : List.Forall₂ (fun i r => ∀ out, saveArrayItem .good (oneItem (repeated n) (.str (.ofBytes [98]))) out i =
      some (out.append (recordBytes r) 4, 0)) [0] [((repeated n).buf.take 1, [98, 0])] := by
    refine .cons (fun out => ?_) .nil
    rw [saveArrayItem_eq (oneItem_item ..)]
    exact saveRecord_take hlen (n := 2) (by decide) ⟨by decide, by simp [CString.buf]⟩ (by decide)
  rw [oneItem_save, saveFile_good fun out => saveAll_good hitems] at hs
  cases hs
  have hfirst : (repeated n).buf.take 1 = [97] := by
    obtain ⟨n, rfl⟩ : ∃ m, n = m + 1 := ⟨n - 1, by rw [hn]; decide⟩
    rfl
  have hload : (kvsArrayLoad (fun _ => .calm 0) kvsArrayCreate
      (IntCodec.int32 1 ++ [([97], [98, 0])].flatMap recordBytes)).isNone = true := by decide +kernel
  rw [hfirst]
  exact Option.isNone_iff_eq_none.mp hload

theorem longKey_not_loaded {n : Nat} (hn : n = UInt32.size) :
    ¬LoadsBack arrayEngine kvsArrayCreate kvsArraySave kvsArrayLoad AnyString
      fun calls T => (∀ c ∈ calls, c.ModifyAllocates) ∧ arrayEngine.CountFits T := by
  intro h
  obtain ⟨file, hs, hl⟩ := h _ _ _ (by simp [Call.Strings, AnyString]) (longKey_run n)
    ⟨by simp [Call.ModifyAllocates], oneItem_countFits _ _⟩
  obtain ⟨s', hl', -⟩ := hl (fun _ => .calm 0) fun _ => Env.calm_allocates 0
  rw [longKey_load hn hs] at hl'
  cases hl'

/-- A `modify` whose allocation fails leaves a value of null, which cannot be saved. -/
theorem failedModify_not_saved :
    ¬LoadsBack arrayEngine kvsArrayCreate kvsArraySave kvsArrayLoad AnyString
      fun _ T => arrayEngine.StringsFit T ∧ arrayEngine.CountFits T := by
  intro h
  let k : CString := .ofBytes [97]
  have hset : arrayEngine.exec kvsArrayCreate (.set (.calm 0) k k) = some (oneItem k (.str k), .code 0) := rfl
  have hmodify : arrayEngine.exec (oneItem k (.str k)) (.modify ⟨0, fun _ => false, fun _ => false⟩ k k) =
      some (oneItem k .null, .code (-3)) := by
    have hwrite : (oneItem k (.str k)).setItem 0 ⟨.str k, .null, 0⟩ = some (oneItem k .null) := by
      simp [KvArray.setItem, oneItem, kvsArraySize]
    have hsome : (oneItem k (.str k)).total ≠ 0 := Nat.one_ne_zero
    simp [Engine.exec, arrayEngine, kvsArrayModify, kvsArrayModifyWithTimestamp, hsome, oneItem_find, oneItem_item,
      CharPtr.free, hwrite]
  have hrun : Run.runs arrayEngine.exec kvsArrayCreate
      [.set (.calm 0) k k, .modify ⟨0, fun _ => false, fun _ => false⟩ k k] =
      some (oneItem k .null, [.code 0, .code (-3)]) := Run.runs_cons hset (Run.runs_cons hmodify rfl)
  have hstrings : arrayEngine.StringsFit (oneItem k .null) := by
    intro j v hget
    by_cases hj : k = j <;> simp [arrayEngine, kvsArrayGet, oneItem_find, oneItem_item, hj] at hget
  obtain ⟨file, hs, -⟩ := h _ _ _ (by simp [Call.Strings, AnyString]) hrun ⟨hstrings, oneItem_countFits _ _⟩
  have hfault : ∀ out, saveAll (saveArrayItem .good (oneItem k .null)) out [0] = none := by
    intro out
    have hitem : saveArrayItem .good (oneItem k .null) out 0 = none := saveArrayItem_eq (oneItem_item ..)
    rw [saveAll, hitem]
    rfl
  simp [oneItem_save, saveFile, fwrite_int32, hfault] at hs

/-- As many strings as there are numbers, none of them long. -/
def numbered (i : Nat) : CString :=
  ⟨List.replicate (i / 65536) 97 ++ List.replicate (i % 65536) 98, by simp [List.mem_replicate]⟩

theorem numbered_injective : Function.Injective numbered := by
  intro i j h
  have hbytes := congrArg CString.bytes h
  have ha := congrArg (List.count 97) hbytes
  have hb := congrArg (List.count 98) hbytes
  simp [numbered, List.count_replicate] at ha hb
  omega

theorem numbered_strlen (i : Nat) : (numbered i).strlen = i / 65536 + i % 65536 := by
  simp [numbered, CString.strlen]

/-- A run of `set` with new keys. -/
theorem Engine.Laws.runs_sets {σ : Type} {E : Engine σ} {A : Answers} {Holds : σ → Map CString Entry → Prop}
    {key val : CString → Prop} (L : E.Laws A Holds key val) {done es : List (CString × CString)} {s : σ}
    {m : Map CString Entry} (h : Holds s m) (hm : Lists done (m.mapVal Entry.value))
    (hnd : ((done ++ es).map Prod.fst).Nodup) (hes : ∀ e ∈ es, key e.1 ∧ val e.2)
    (hroom : ∀ n < (done ++ es).length, A.full n = none) :
    ∃ s' outs m', Run.runs E.exec s (es.map fun e => .set (.calm 0) e.1 e.2) = some (s', outs) ∧ Holds s' m' ∧
      Lists (done ++ es) (m'.mapVal Entry.value) := by
  induction es generalizing done s m with
  | nil => exact ⟨s, [], m, rfl, h, by simpa using hm⟩
  | cons e es ih =>
    obtain ⟨hk, hv⟩ := hes e List.mem_cons_self
    obtain ⟨s₁, hs₁, h₁, hm₁⟩ := L.set_new h hm (not_mem_of_nodup_append hnd) hk hv (hroom _ (by simp))
      (Env.calm_allocates 0)
    have hsplit : done ++ e :: es = (done ++ [e]) ++ es := by simp
    rw [hsplit] at hnd hroom ⊢
    obtain ⟨s', outs, m', hrun, h', hm'⟩ := ih h₁ hm₁ hnd (fun e' he' => hes e' (List.mem_cons_of_mem e he')) hroom
    exact ⟨s', _, m', Run.runs_cons (Engine.exec_set hs₁) hrun, h', hm'⟩

/-- A tree with this many keys, whose count in the file is a negative `int`, so that nothing is loaded. -/
theorem manyKeys_load {n : Nat} (hn : n = 2147483648) : ∃ calls T outs m,
    (∀ c ∈ calls, c.Strings AnyString AnyString ∧ c.ModifyAllocates) ∧
    Run.runs rbtreeEngine.exec kvsRbtreeCreate calls = some (T, outs) ∧ RbtreeHolds T m ∧ m.size = n ∧
    rbtreeEngine.StringsFit T ∧ ∀ file, kvsRbtreeSave .good T = some (file, 0) →
      kvsRbtreeLoad (fun _ => .calm 0) kvsRbtreeCreate file = some (kvsRbtreeCreate, 0) := by
  have hnd : (((List.range n).map fun i => (numbered i, numbered 0)).map Prod.fst).Nodup := by
    rw [List.map_map]
    exact List.nodup_range.map numbered_injective
  obtain ⟨T, outs, m, hrun, hT, hm⟩ := rbtreeLaws.runs_sets rbtreeCreate_holds Lists.nil hnd
    (fun _ _ => ⟨trivial, trivial⟩)
    fun _ _ => rfl
  have hsize : m.size = n := by
    rw [← Map.size_mapVal Entry.value, hm.size]
    simp
  have hfits : rbtreeEngine.StringsFit T := by
    intro k v hget
    have hmem : (k, v) ∈ (List.range n).map fun i => (numbered i, numbered 0) := by
      refine (hm.mem k v).mpr ?_
      cases hk : m k with
      | none =>
        rw [rbtreeLaws.get_absent hT trivial hk] at hget
        cases hget
      | some e =>
        rw [rbtreeLaws.get_present hT trivial hk] at hget
        cases hget
        simp [hk]
    obtain ⟨i, hi, heq⟩ := List.mem_map.mp hmem
    obtain ⟨rfl, rfl⟩ := Prod.mk.inj heq
    have hlt := List.mem_range.mp hi
    rw [numbered_strlen, numbered_strlen]
    omega
  refine ⟨_, T, outs, m, ?_, hrun, hT, hsize, hfits, fun file hsave => ?_⟩
  · intro c hc
    obtain ⟨e, -, rfl⟩ := List.mem_map.mp hc
    exact ⟨⟨trivial, trivial⟩, trivial⟩
  · obtain ⟨es, hes, -, -, hfile⟩ := rbtreeLaws.saved hT rbtreeSavesEntries hfits
    rw [hfile] at hsave
    cases hsave
    have hlen : (es.map (storedRecord 1)).length = n := by
      rw [List.length_map, ← hes.size, Map.size_mapVal, hsize]
    have hzero : ((n : Int).bmod UInt32.size).toNat = 0 := by
      rw [hn]
      decide
    rw [kvsRbtreeLoad, fileBytes, load_int32, hlen, hzero]
    rfl

theorem manyKeys_not_loaded {n : Nat} (hn : n = 2147483648) :
    ¬LoadsBack rbtreeEngine kvsRbtreeCreate kvsRbtreeSave kvsRbtreeLoad AnyString
      fun calls T => (∀ c ∈ calls, c.ModifyAllocates) ∧ rbtreeEngine.StringsFit T := by
  intro h
  obtain ⟨calls, T, outs, m, hcalls, hrun, hT, hsize, hfits, hload⟩ := manyKeys_load hn
  obtain ⟨file, hsave, hl⟩ := h calls T outs (fun c hc => (hcalls c hc).1) hrun ⟨fun c hc => (hcalls c hc).2, hfits⟩
  obtain ⟨T', hload', -, hcount⟩ := hl (fun _ => .calm 0) fun _ => Env.calm_allocates 0
  rw [hload file hsave] at hload'
  cases hload'
  have hempty : rbtreeEngine.count kvsRbtreeCreate = some (0 : Int) := rfl
  rw [rbtreeLaws.count hT, hempty, hsize, hn] at hcount
  cases hcount

/-- Without its conditions the round trip fails, and it needs each of them. -/
theorem save_load_conditions_needed :
    ¬LoadsBack arrayEngine kvsArrayCreate kvsArraySave kvsArrayLoad AnyString (fun _ _ => True) ∧
    ¬LoadsBack arrayEngine kvsArrayCreate kvsArraySave kvsArrayLoad AnyString
      (fun calls T => (∀ c ∈ calls, c.ModifyAllocates) ∧ arrayEngine.CountFits T) ∧
    ¬LoadsBack arrayEngine kvsArrayCreate kvsArraySave kvsArrayLoad AnyString
      (fun _ T => arrayEngine.StringsFit T ∧ arrayEngine.CountFits T) ∧
    ¬LoadsBack rbtreeEngine kvsRbtreeCreate kvsRbtreeSave kvsRbtreeLoad AnyString
      (fun calls T => (∀ c ∈ calls, c.ModifyAllocates) ∧ rbtreeEngine.StringsFit T) :=
  ⟨fun h => longKey_not_loaded rfl fun calls T outs hstr hrun _ => h calls T outs hstr hrun trivial,
    longKey_not_loaded rfl, failedModify_not_saved, manyKeys_not_loaded rfl⟩

end KvStore
