import KvStore.Theorems.HashDelete
import KvStore.Theorems.RbtreeFrame
import KvStore.Theorems.SaveLoad

/-! Saving to a disk on which any `fwrite` may fail: when a save that returns 0 has written the whole store. -/

namespace KvStore
open IntCodec RedBlack

/-! ### What a whole file takes -/

/-- The length of a string as the save functions compute it. -/
def lengthOf (nul : Nat) (s : CString) : Int := ((s.strlen + nul : Nat) : Int).bmod UInt32.size

/-- The objects of a record, each with the size that `fwrite` is called with. -/
def recordObjects (nul : Nat) (e : CString × CString) : List (List UInt8 × Int) :=
  [(int32 (lengthOf nul e.1), 4), (e.1.buf, lengthOf nul e.1), (int32 (lengthOf nul e.2), 4),
    (e.2.buf, lengthOf nul e.2)]

/-- The objects of a file: the count, and then record after record. -/
def fileObjects (nul : Nat) (totalCount : Int) (es : List (CString × CString)) : List (List UInt8 × Int) :=
  (int32 totalCount, 4) :: es.flatMap (recordObjects nul)

theorem length_fileObjects (nul : Nat) (totalCount : Int) (es : List (CString × CString)) :
    (fileObjects nul totalCount es).length = 4 * es.length + 1 := by
  simp [fileObjects, recordObjects, Nat.mul_comm]

/-- The file after one `fwrite` for each object, all of which return 1. -/
def writeAll (disk : Disk) : OutFile → List (List UInt8 × Int) → Option OutFile
  | out, [] => some out
  | out, (obj, size) :: objs => do
    let (out, res) ← fwrite disk out obj size
    if res = 1 then writeAll disk out objs else none

section Objects
variable {disk : Disk} {out out' : OutFile} {objs objs' : List (List UInt8 × Int)} {obj : List UInt8} {size : Int}

theorem writeAll_cons : writeAll disk out ((obj, size) :: objs) = some out' ↔
    ∃ o, fwrite disk out obj size = some (o, 1) ∧ writeAll disk o objs = some out' := by
  rw [writeAll, Option.bind_eq_bind, Option.bind_eq_some_iff]
  constructor
  · rintro ⟨⟨o, res⟩, hw, h⟩
    simp only at h
    split at h
    · next hres => exact ⟨o, hres ▸ hw, h⟩
    · cases h
  · rintro ⟨o, hw, h⟩
    exact ⟨(o, 1), hw, h⟩

theorem writeAll_append : writeAll disk out (objs ++ objs') = some out' ↔
    ∃ o, writeAll disk out objs = some o ∧ writeAll disk o objs' = some out' := by
  induction objs generalizing out with
  | nil => simp [writeAll]
  | cons a objs ih =>
    obtain ⟨obj, size⟩ := a
    rw [List.cons_append, writeAll_cons]
    constructor
    · rintro ⟨o, hw, h⟩
      obtain ⟨o', ho, h⟩ := ih.mp h
      exact ⟨o', writeAll_cons.mpr ⟨o, hw, ho⟩, h⟩
    · rintro ⟨o', ho, h⟩
      obtain ⟨o, hw, ho⟩ := writeAll_cons.mp ho
      exact ⟨o, hw, ih.mpr ⟨o', ho, h⟩⟩

/-- Objects with their sizes and the codes that are returned when they cannot be written. -/
def writeUntil (disk : Disk) : OutFile → List (List UInt8 × Int × Int) → Option (OutFile × Int)
  | out, [] => some (out, 0)
  | out, (obj, size, code) :: objs => do
    let (out, res) ← fwrite disk out obj size
    if res ≠ 1 then some (out, code) else writeUntil disk out objs

theorem writeUntil_zero_iff {steps : List (List UInt8 × Int × Int)} (h : ∀ s ∈ steps, s.2.2 ≠ 0) :
    writeUntil disk out steps = some (out', 0) ↔ writeAll disk out (steps.map fun s => (s.1, s.2.1)) = some out' := by
  induction steps generalizing out with
  | nil => simp [writeUntil, writeAll]
  | cons s steps ih =>
    obtain ⟨obj, size, code⟩ := s
    rw [List.forall_mem_cons] at h
    rw [List.map_cons, writeAll_cons, writeUntil, Option.bind_eq_bind, Option.bind_eq_some_iff]
    constructor
    · rintro ⟨⟨o, res⟩, hw, hs⟩
      simp only at hs
      by_cases hres : res ≠ 1
      · rw [if_pos hres, Option.some.injEq, Prod.mk.injEq] at hs
        exact absurd hs.2 h.1
      · rw [if_neg hres] at hs
        exact ⟨o, not_not.mp hres ▸ hw, (ih h.2).mp hs⟩
    · rintro ⟨o, hw, hs⟩
      exact ⟨(o, 1), hw, (ih h.2).mpr hs⟩

/-- `saveRecord` leaves at the first of four objects that cannot be written. -/
theorem saveRecord_eq {err : Int} {nul : Nat} {k v : CString} :
    saveRecord disk err nul out (.str k) (.str v) = writeUntil disk out
      [(int32 (lengthOf nul k), 4, err), (k.buf, lengthOf nul k, err - 1), (int32 (lengthOf nul v), 4, err - 2),
        (v.buf, lengthOf nul v, err - 3)] := by
  simp only [writeUntil]
  rfl

/-- A record is saved with the code 0 exactly when its value is there and its four objects are written. -/
theorem saveRecord_zero_iff {err : Int} (herr : err < 0) {nul : Nat} {k : CString} {p : CharPtr} :
    saveRecord disk err nul out (.str k) p = some (out', 0) ↔
      ∃ v, p = .str v ∧ writeAll disk out (recordObjects nul (k, v)) = some out' := by
  cases p with
  | null =>
    refine iff_of_false (fun h => ?_) (fun ⟨v, hv, _⟩ => ?_)
    · cases h
    · cases hv
  | freed =>
    refine iff_of_false (fun h => ?_) (fun ⟨v, hv, _⟩ => ?_)
    · cases h
    · cases hv
  | str v =>
    have hvalue : (∃ w, CharPtr.str v = .str w ∧ writeAll disk out (recordObjects nul (k, w)) = some out') ↔
        writeAll disk out (recordObjects nul (k, v)) = some out' := by simp
    rw [saveRecord_eq, hvalue, writeUntil_zero_iff]
    · simp only [List.map_cons, List.map_nil, recordObjects]
    · simp only [List.forall_mem_cons]
      exact ⟨by omega, by omega, by omega, by omega, List.forall_mem_nil _⟩

/-- No `fwrite` of a file that is written to its end has failed. -/
theorem writeAll_disk (h : writeAll disk out objs = some out') : ∀ i < objs.length, disk (out.writes + i) = none := by
  induction objs generalizing out with
  | nil => simp
  | cons a objs ih =>
    obtain ⟨obj, size⟩ := a
    obtain ⟨o, hw, h⟩ := writeAll_cons.mp h
    obtain ⟨hdisk, hwrites⟩ : disk out.writes = none ∧ o.writes = out.writes + 1 := by
      unfold fwrite at hw
      split at hw
      · cases hw
      · split at hw
        · cases hw
        · cases hd : disk out.writes with
          | none =>
            rw [hd] at hw
            cases hw
            exact ⟨rfl, rfl⟩
          | some n =>
            rw [hd] at hw
            cases hw
    intro i hi
    cases i with
    | zero => exact hdisk
    | succ i =>
      have hrest := ih h i (Nat.lt_of_succ_lt_succ hi)
      rwa [hwrites, Nat.add_assoc, Nat.add_comm 1] at hrest

theorem fwrite_int32_iff {n : Int} {o : OutFile} : fwrite disk out (int32 n) 4 = some (o, 1) ↔
    disk out.writes = none ∧ o = ⟨out.bytes ++ int32 n, out.writes + 1⟩ := by
  have htake : (int32 n).take 4 = int32 n := List.take_of_length_le (by simp)
  rw [fwrite, if_neg (by decide), if_neg (by simp)]
  cases disk out.writes with
  | none => simp [htake, eq_comm]
  | some w => simp

/-- A loop that ends with the code 0 has written the objects of everything that it went through. -/
theorem saveAll_zero {α β : Type} {save : OutFile → α → Option (OutFile × Int)} {R : α → β → Prop}
    {objs : β → List (List UInt8 × Int)}
    (h : ∀ a out out', save out a = some (out', 0) → ∃ b, R a b ∧ writeAll disk out (objs b) = some out') {as : List α}
    (hs : saveAll save out as = some (out', 0)) :
    ∃ bs, List.Forall₂ R as bs ∧ writeAll disk out (bs.flatMap objs) = some out' := by
  induction as generalizing out with
  | nil =>
    cases hs
    exact ⟨[], List.Forall₂.nil, rfl⟩
  | cons a as ih =>
    simp only [saveAll, Option.bind_eq_bind, Option.bind_eq_some_iff] at hs
    obtain ⟨⟨o, ret⟩, hone, hs⟩ := hs
    by_cases hret : ret ≠ 0
    · rw [if_pos hret, Option.some.injEq, Prod.mk.injEq] at hs
      exact absurd hs.2 hret
    · rw [if_neg hret] at hs
      rw [not_not.mp hret] at hone
      obtain ⟨b, hb, hwb⟩ := h a out o hone
      obtain ⟨bs, hbs, hwbs⟩ := ih hs
      exact ⟨b :: bs, hbs.cons hb, writeAll_append.mpr ⟨o, hwb, hwbs⟩⟩

theorem saveFile_zero_iff {totalCount : Int} {records : OutFile → Option (OutFile × Int)} {file : List UInt8} :
    saveFile disk totalCount records = some (file, 0) ↔ ∃ o out,
      fwrite disk ⟨[], 0⟩ (int32 totalCount) 4 = some (o, 1) ∧ records o = some (out, 0) ∧ out.bytes = file := by
  simp only [saveFile, Option.bind_eq_bind, Option.bind_eq_some_iff]
  constructor
  · rintro ⟨⟨o, res⟩, hw, h⟩
    simp only at h
    split at h
    · cases h
    · next hres =>
      obtain ⟨⟨out, ret⟩, hrec, heq⟩ := Option.bind_eq_some_iff.mp h
      cases heq
      exact ⟨o, out, not_not.mp hres ▸ hw, hrec, rfl⟩
  · rintro ⟨o, out, hw, hrec, rfl⟩
    refine ⟨(o, 1), hw, ?_⟩
    simp [hrec]

end Objects

namespace EngineKind

/-- The entries of the store, in the order in which its engine saves them. -/
def Entries : (kind : EngineKind) → kind.Store → List (CString × CharPtr) → Prop
  | .array => fun T es => ∃ items, T.Stores items ∧ es = items.map fun e => (e.1, e.2.1)
  | .rbtree => fun T es => ∃ t, Rep T t ∧ es = t.preorder.map fun e => (e.key, e.value)
  | .hash => fun H es => es = H.entries.map fun e => (e.1, e.2.1)
  | .skiptable => fun T es => ∃ L, SkipInv T L ∧ es = L.map fun c => (c.key, .str c.value)

/-- Whether the lengths in the file count the terminators. -/
def nul : EngineKind → Nat
  | .skiptable => 0
  | _ => 1

/-- Every entry of the store has a value, and the count and the four objects of each entry have gone to the file. -/
def WritesWhole (kind : EngineKind) (disk : Disk) (s : kind.Store) (file : List UInt8) : Prop :=
  ∃ totalCount es out, kind.engine.count s = some totalCount ∧ kind.Entries s (es.map fun e => (e.1, .str e.2)) ∧
    writeAll disk ⟨[], 0⟩ (fileObjects kind.nul totalCount es) = some out ∧ out.bytes = file

/-- A save that returns 0 has written the whole store. -/
def SavesWhole (kind : EngineKind) (disk : Disk) (s : kind.Store) : Prop :=
  ∀ file, kind.backend.save disk s = some (file, 0) → kind.WritesWhole disk s file

end EngineKind

section Loops
variable {disk : Disk}

theorem saveArrayItem_zero {T : KvArray} {i : Nat} {o o' : OutFile} (h : saveArrayItem disk T o i = some (o', 0)) :
    ∃ e : CString × CString, (∃ t, T.item i = some (arrayItem (e.1, .str e.2, t))) ∧
      writeAll disk o (recordObjects 1 e) = some o' := by
  obtain ⟨⟨key, value, t⟩, hitem, hrec⟩ := Option.bind_eq_some_iff.mp h
  cases key with
  | null => cases hrec
  | freed => cases hrec
  | str k =>
    obtain ⟨v, rfl, hw⟩ := (saveRecord_zero_iff (by decide)).mp hrec
    exact ⟨(k, v), ⟨t, hitem⟩, hw⟩

theorem array_savesWhole {T : KvArray} {items : List (CString × CharPtr × UInt64)} (h : T.Stores items) :
    EngineKind.array.SavesWhole disk T := by
  intro file hs
  have hsave : kvsArraySave disk T = some (file, 0) := hs
  rw [kvsArraySave_eq] at hsave
  obtain ⟨o, out, hcount, hrecords, hfile⟩ := saveFile_zero_iff.mp hsave
  obtain ⟨es, hes, hw⟩ := saveAll_zero (fun i _ _ => saveArrayItem_zero (T := T) (i := i)) hrecords
  refine ⟨T.total, es, out, rfl, ⟨items, h, ?_⟩, writeAll_cons.mpr ⟨o, hcount, hw⟩, hfile⟩
  rw [List.forall₂_iff_get] at hes
  obtain ⟨hlen, hes⟩ := hes
  rw [List.length_range] at hlen
  refine List.ext_getElem (by simp [← hlen, h.total]) fun i hi hi' => ?_
  rw [List.length_map] at hi hi'
  obtain ⟨t, hitem⟩ := hes i (by simpa [hlen] using hi) hi
  rw [List.get_eq_getElem, List.getElem_range, h.item (List.getElem?_eq_getElem (by simpa using hi'))] at hitem
  have heq := Option.some.inj hitem
  rw [List.getElem_map, List.getElem_map]
  exact Prod.ext (CharPtr.str.inj (congrArg ArrayItem.key heq)).symm (congrArg ArrayItem.value heq).symm

theorem map_eq_of_forall₂ {α β γ : Type} {f : α → γ} {g : β → γ} {as : List α} {bs : List β}
    (h : List.Forall₂ (fun a b => f a = g b) as bs) : as.map f = bs.map g := by
  induction h with
  | nil => rfl
  | cons hab _ ih => rw [List.map_cons, List.map_cons, hab, ih]

/-- A chain that is saved with the code 0. -/
theorem saveChain_zero {chain : List HashNode} {o o' : OutFile}
    (h : saveAll (saveHashNode disk) o chain = some (o', 0)) :
    ∃ es : List (CString × CString), chain.map (fun n => (n.key, n.value)) = es.map (fun e => (e.1, .str e.2)) ∧
      writeAll disk o (es.flatMap (recordObjects 1)) = some o' := by
  have hnode : ∀ n o o', saveHashNode disk o n = some (o', 0) → ∃ e : CString × CString,
      (n.key, n.value) = (e.1, .str e.2) ∧ writeAll disk o (recordObjects 1 e) = some o' := by
    intro n o o' hn
    obtain ⟨v, hv, hw⟩ := (saveRecord_zero_iff (by decide)).mp hn
    exact ⟨(n.key, v), by rw [hv], hw⟩
  obtain ⟨es, hes, hw⟩ := saveAll_zero hnode h
  exact ⟨es, map_eq_of_forall₂ hes, hw⟩

theorem hash_savesWhole (H : Hash) : EngineKind.hash.SavesWhole disk H := by
  intro file hs
  have hsave : kvsHashSave disk H = some (file, 0) := hs
  rw [kvsHashSave_eq] at hsave
  obtain ⟨o, out, hcount, hrecords, hfile⟩ := saveFile_zero_iff.mp hsave
  have hchain := fun i (o o' : OutFile) => @saveChain_zero disk (H.table i) o o'
  obtain ⟨ess, hess, hw⟩ := saveAll_zero hchain hrecords
  refine ⟨H.count, ess.flatten, out, rfl, ?_, writeAll_cons.mpr ⟨o, hcount, ?_⟩, hfile⟩
  · have hmaps := congrArg List.flatten (map_eq_of_forall₂ hess)
    rw [← List.flatMap_def, ← List.map_flatten] at hmaps
    have hentries : H.entries.map (fun e => (e.1, e.2.1)) =
        (List.range maxTableSize).flatMap fun i => (H.table i).map fun n => (n.key, n.value) := by
      rw [Hash.entries, List.map_flatMap]
      exact List.flatMap_congr fun i _ => List.map_map
    exact hmaps.symm.trans hentries.symm
  · rw [List.flatten_eq_flatMap, List.flatMap_assoc]
    exact hw

theorem WalksTo.saveLoop_zero {T : Skiptable} {L : List SkipCell} {p : Ptr} {fuel : Nat} {o o' : OutFile}
    (h : WalksTo T p L) (hfuel : L.length < fuel)
    (hs : skiptableSaveLoop disk T fuel ((L.map SkipCell.ptr).headD 0) o = some (o', 0)) :
    writeAll disk o ((L.map SkipCell.pair).flatMap (recordObjects 0)) = some o' := by
  induction L generalizing p fuel o with
  | nil =>
    obtain ⟨fuel, rfl⟩ := Nat.exists_eq_succ_of_ne_zero (Nat.ne_zero_of_lt hfuel)
    cases hs
    rfl
  | cons c L ih =>
    obtain ⟨fuel, rfl⟩ := Nat.exists_eq_succ_of_ne_zero (Nat.ne_zero_of_lt hfuel)
    cases hrec : saveRecord disk (-3) 0 o (.str c.key) (.str c.value) with
    | none =>
      obtain ⟨hne, hnode⟩ := h.2 c List.mem_cons_self
      rw [List.map_cons, List.headD_cons, skiptableSaveLoop, if_neg hne, hnode] at hs
      simp only [Option.bind_eq_bind, Option.bind_some, SkipCell.node, hrec, Option.bind_none] at hs
      cases hs
    | some r =>
      obtain ⟨o₁, ret⟩ := r
      rw [h.saveLoop_cons hrec] at hs
      by_cases hret : ret ≠ 0
      · rw [if_pos hret, Option.some.injEq, Prod.mk.injEq] at hs
        exact absurd hs.2 hret
      · rw [if_neg hret] at hs
        rw [not_not.mp hret] at hrec
        obtain ⟨v, hv, hw⟩ := (saveRecord_zero_iff (by decide)).mp hrec
        cases hv
        exact writeAll_append.mpr ⟨o₁, hw, ih h.tail (Nat.lt_of_succ_lt_succ hfuel) hs⟩

theorem skip_savesWhole {T : Skiptable} {L : List SkipCell} (h : SkipInv T L) :
    EngineKind.skiptable.SavesWhole disk T := by
  intro file hs
  have hwalk := h.rep.walksTo
  have hsave : kvsSkiptableSave disk T = some (file, 0) := hs
  rw [h.rep.save_eq] at hsave
  obtain ⟨o, out, hcount, hrecords, hfile⟩ := saveFile_zero_iff.mp hsave
  have hw := hwalk.saveLoop_zero (Nat.lt_succ_of_lt h.rep.length_lt) hrecords
  refine ⟨T.size, L.map SkipCell.pair, out, rfl, ⟨L, h, ?_⟩, writeAll_cons.mpr ⟨o, hcount, hw⟩, hfile⟩
  rw [List.map_map]
  rfl

end Loops

/-! ### The tree -/

/-- The nodes whose result codes reach `kvs_rbtree_save`: from a node the way goes on to its right child, and to its
    left one only when it has no right one. -/
def lastPath : RBTree Cell → List Cell
  | .nil => []
  | .node _ l e .nil => e :: lastPath l
  | .node _ _ e r => e :: lastPath r

/-- The walk of `kvs_rbtree_save_node_recursive`, with the nodes whose records it cannot write. It leaves out the
    subtrees of such a node. -/
def unwritten (disk : Disk) : RBTree Cell → OutFile → Option (OutFile × List Cell)
  | .nil, out => some (out, [])
  | .node _ l e r, out => do
    let (out, res) ← saveRecord disk (-2) 1 out (.str e.key) e.value
    if res ≠ 0 then some (out, [e])
    else do
      let (out, left) ← unwritten disk l out
      let (out, right) ← unwritten disk r out
      some (out, left ++ right)

section Tree
variable {disk : Disk} {T : Rbtree} {t l r : RBTree Cell} {ctx : Ctx Cell} {c : Color} {e : Cell} {out o : OutFile}
  {lost : List Cell}

theorem lastPath_node (hr : r ≠ .nil) : lastPath (.node c l e r) = e :: lastPath r := by
  cases r with
  | nil => exact absurd rfl hr
  | node c' l' e' r' => rfl

theorem lastPath_subset : ∀ t : RBTree Cell, lastPath t ⊆ t.toList
  | .nil => List.Subset.refl _
  | .node _ l e .nil => by
    intro a ha
    rcases List.mem_cons.mp ha with rfl | ha
    · simp [RBTree.toList]
    · simp [RBTree.toList, lastPath_subset l ha]
  | .node c l e (.node c' l' e' r') => by
    intro a ha
    rcases List.mem_cons.mp ha with rfl | ha
    · simp [RBTree.toList]
    · have hmem := lastPath_subset (.node c' l' e' r') ha
      rw [RBTree.toList, List.mem_append, List.mem_cons]
      exact Or.inr (Or.inr hmem)

theorem unwritten_subset (h : unwritten disk t out = some (o, lost)) : lost ⊆ t.toList := by
  induction t generalizing out o lost with
  | nil =>
    cases h
    exact List.nil_subset _
  | node c l e r ihl ihr =>
    simp only [unwritten, Option.bind_eq_bind, Option.bind_eq_some_iff] at h
    obtain ⟨⟨o₁, res⟩, -, h⟩ := h
    split at h
    · cases h
      simp [RBTree.toList]
    · obtain ⟨⟨o₂, left⟩, hl, h⟩ := Option.bind_eq_some_iff.mp h
      obtain ⟨⟨o₃, right⟩, hr, h⟩ := Option.bind_eq_some_iff.mp h
      cases h
      intro a ha
      rw [RBTree.toList, List.mem_append, List.mem_cons]
      rcases List.mem_append.mp ha with ha | ha
      · exact Or.inl (ihl hl ha)
      · exact Or.inr (Or.inr (ihr hr ha))

theorem unwritten_node_nil : unwritten disk (.node c l e r) out = some (o, []) ↔
    ∃ o₁ o₂, saveRecord disk (-2) 1 out (.str e.key) e.value = some (o₁, 0) ∧ unwritten disk l o₁ = some (o₂, []) ∧
      unwritten disk r o₂ = some (o, []) := by
  simp only [unwritten, Option.bind_eq_bind, Option.bind_eq_some_iff]
  constructor
  · rintro ⟨⟨o₁, res⟩, hrec, h⟩
    split at h
    · cases h
    · next hres =>
      obtain ⟨⟨o₂, left⟩, hl, h⟩ := Option.bind_eq_some_iff.mp h
      obtain ⟨⟨o₃, right⟩, hr, h⟩ := Option.bind_eq_some_iff.mp h
      simp only [Option.some.injEq, Prod.mk.injEq, List.append_eq_nil_iff] at h
      obtain ⟨rfl, rfl, rfl⟩ := h
      have hzero : res = 0 := not_not.mp hres
      exact ⟨o₁, o₂, hzero ▸ hrec, hl, hr⟩
  · rintro ⟨o₁, o₂, hrec, hl, hr⟩
    refine ⟨(o₁, 0), hrec, ?_⟩
    simp [hl, hr]

/-- Nothing is left out exactly when the objects of all records are written. -/
theorem unwritten_nil_iff : unwritten disk t out = some (o, []) ↔ ∃ es : List (CString × CString),
    t.preorder.map (fun e => (e.key, e.value)) = es.map (fun e => (e.1, .str e.2)) ∧
      writeAll disk out (es.flatMap (recordObjects 1)) = some o := by
  induction t generalizing out o with
  | nil =>
    simp only [unwritten, RBTree.preorder, List.map_nil, List.nil_eq, List.map_eq_nil_iff, exists_eq_left,
      List.flatMap_nil, writeAll, Option.some.injEq, Prod.mk.injEq, and_true]
  | node c l e r ihl ihr =>
    rw [unwritten_node_nil, RBTree.preorder, List.map_cons, List.map_append]
    constructor
    · rintro ⟨o₁, o₂, hrec, hl, hr⟩
      obtain ⟨v, hv, hw⟩ := (saveRecord_zero_iff (by decide)).mp hrec
      obtain ⟨es₁, hes₁, hw₁⟩ := ihl.mp hl
      obtain ⟨es₂, hes₂, hw₂⟩ := ihr.mp hr
      refine ⟨(e.key, v) :: (es₁ ++ es₂), ?_, ?_⟩
      · rw [List.map_cons, List.map_append, hv, hes₁, hes₂]
      · rw [List.flatMap_cons, List.flatMap_append]
        exact writeAll_append.mpr ⟨o₁, hw, writeAll_append.mpr ⟨o₂, hw₁, hw₂⟩⟩
    · rintro ⟨es, hes, hw⟩
      obtain ⟨⟨k, v⟩, es', rfl, hhead, htail⟩ := List.map_eq_cons_iff.mp hes.symm
      obtain ⟨es₁, es₂, rfl, hes₁, hes₂⟩ := List.map_eq_append_iff.mp htail
      obtain ⟨rfl, hv⟩ := Prod.mk.inj hhead
      rw [List.flatMap_cons, List.flatMap_append] at hw
      obtain ⟨o₁, hw, hw'⟩ := writeAll_append.mp hw
      obtain ⟨o₂, hw₁, hw₂⟩ := writeAll_append.mp hw'
      exact ⟨o₁, o₂, (saveRecord_zero_iff (by decide)).mpr ⟨v, hv.symm, hw⟩, ihl.mpr ⟨es₁, hes₁.symm, hw₁⟩,
        ihr.mpr ⟨es₂, hes₂.symm, hw₂⟩⟩

theorem mem_lastPath (e : Cell) : e ∈ lastPath (.node c l e r) := by
  cases r <;> exact List.mem_cons_self

theorem Rep.cells_nodup (h : Rep T (plug ctx t)) : t.toList.Nodup := by
  have hnd : (plug ctx t).toList.Nodup := h.nodup.of_map
  rw [toList_plug, List.nodup_append, List.nodup_append] at hnd
  exact hnd.1.2.1

/-- Without a right subtree the last path goes on to the left. -/
theorem lost_left {left : List Cell} (hnd : (RBTree.node c l e .nil).toList.Nodup) (hl : left ⊆ l.toList) :
    (∀ a ∈ left, a ∉ lastPath (.node c l e .nil)) ↔ ∀ a ∈ left, a ∉ lastPath l := by
  rw [RBTree.toList, List.nodup_middle, List.nodup_cons] at hnd
  refine forall₂_congr fun a ha => ?_
  have hne : a ≠ e := fun hae => hnd.1 (List.mem_append_left _ (hae ▸ hl ha))
  rw [lastPath, List.mem_cons, not_or, and_iff_right hne]

/-- With one it goes on to the right, and what the left subtree lacks is not on it. -/
theorem lost_right {left right : List Cell} (hr : r ≠ .nil) (hnd : (RBTree.node c l e r).toList.Nodup)
    (hleft : left ⊆ l.toList) (hright : right ⊆ r.toList) :
    (∀ a ∈ left ++ right, a ∉ lastPath (.node c l e r)) ↔ ∀ a ∈ right, a ∉ lastPath r := by
  rw [RBTree.toList, List.nodup_append, List.nodup_cons] at hnd
  obtain ⟨-, ⟨he, -⟩, hdisj⟩ := hnd
  rw [lastPath_node hr, List.forall_mem_append]
  constructor
  · rintro ⟨-, h⟩ a ha hpath
    exact h a ha (List.mem_cons_of_mem e hpath)
  · refine fun h => ⟨fun a ha hpath => ?_, fun a ha hpath => ?_⟩
    · rcases List.mem_cons.mp hpath with rfl | hpath
      · exact hdisj a (hleft ha) a List.mem_cons_self rfl
      · exact hdisj a (hleft ha) a (List.mem_cons_of_mem e (lastPath_subset r hpath)) rfl
    · rcases List.mem_cons.mp hpath with rfl | hpath
      · exact he (hright ha)
      · exact h a ha hpath

/-- `kvs_rbtree_save_node_recursive` at a node. -/
theorem Rep.saveNode_node {fuel : Nat} (h : Rep T (plug ctx (.node c l e r))) (hfuel : 0 < fuel) :
    kvsRbtreeSaveNodeRecursive disk T (fuel + 1) e.ptr out =
      (saveRecord disk (-2) 1 out (.str e.key) e.value).bind fun (o, res) =>
        if res ≠ 0 then some (o, res)
        else (kvsRbtreeSaveNodeRecursive disk T fuel (ptrOf T.nil l) o).bind fun (o, ret) =>
          if ptrOf T.nil r ≠ T.nil then kvsRbtreeSaveNodeRecursive disk T fuel (ptrOf T.nil r) o
          else some (o, ret) := by
  have F := h.fields (s := .left)
  rw [kvsRbtreeSaveNodeRecursive, if_neg (h.live_mk (s := .left)).1]
  simp only [Option.bind_eq_bind, F.key, F.value, F.left, F.right, Side.pick, Option.bind_some, saveNode_guard hfuel]

/-- The code of the walk is 0 exactly when it leaves out no node on the last path. -/
theorem Rep.saveNode_unwritten {fuel : Nat} (h : Rep T (plug ctx t)) (hfuel : t.toList.length < fuel) (disk : Disk)
    (out : OutFile) :
    (unwritten disk t out = none ∧ kvsRbtreeSaveNodeRecursive disk T fuel (ptrOf T.nil t) out = none) ∨
    ∃ o lost ret, unwritten disk t out = some (o, lost) ∧
      kvsRbtreeSaveNodeRecursive disk T fuel (ptrOf T.nil t) out = some (o, ret) ∧
      (ret = 0 ↔ ∀ e ∈ lost, e ∉ lastPath t) := by
  refine Rep.downward (P := fun fuel _ t => ∀ out,
    (unwritten disk t out = none ∧ kvsRbtreeSaveNodeRecursive disk T fuel (ptrOf T.nil t) out = none) ∨
    ∃ o lost ret, unwritten disk t out = some (o, lost) ∧
      kvsRbtreeSaveNodeRecursive disk T fuel (ptrOf T.nil t) out = some (o, ret) ∧
      (ret = 0 ↔ ∀ e ∈ lost, e ∉ lastPath t))
    (fun fuel ctx out => ?_) (fun fuel ctx c l e r hpos h ihl ihr out => ?_) h hfuel out
  · exact Or.inr ⟨out, [], 0, rfl, by simp [kvsRbtreeSaveNodeRecursive], by simp⟩
  · have hnd := h.cells_nodup
    rw [ptrOf_node, h.saveNode_node hpos]
    cases hrec : saveRecord disk (-2) 1 out (.str e.key) e.value with
    | none => exact Or.inl ⟨by simp [unwritten, hrec], rfl⟩
    | some p =>
      obtain ⟨o₁, res⟩ := p
      by_cases hres : res ≠ 0
      · refine Or.inr ⟨o₁, [e], res, by simp [unwritten, hrec, hres], by simp [hres], iff_of_false hres ?_⟩
        exact fun hall => hall e List.mem_cons_self (mem_lastPath e)
      rw [not_not] at hres
      subst hres
      rcases ihl o₁ with ⟨hul, hsl⟩ | ⟨o₂, left, retl, hul, hsl, hcodel⟩
      · exact Or.inl ⟨by simp [unwritten, hrec, hul], by simp [hsl]⟩
      by_cases hr : r = .nil
      · subst hr
        refine Or.inr ⟨o₂, left, retl, by simp [unwritten, hrec, hul], by simp [hsl], ?_⟩
        rw [lost_left hnd (unwritten_subset hul), hcodel]
      have hguard := h.right_ne_nil hr
      rcases ihr o₂ with ⟨hur, hsr⟩ | ⟨o₃, right, retr, hur, hsr, hcoder⟩
      · exact Or.inl ⟨by simp [unwritten, hrec, hul, hur], by simp [hsl, hguard, hsr]⟩
      · refine Or.inr ⟨o₃, left ++ right, retr, by simp [unwritten, hrec, hul, hur], by simp [hsl, hguard, hsr], ?_⟩
        rw [lost_right hr hnd (unwritten_subset hul) (unwritten_subset hur), hcoder]

/-- A memory holds at most one tree at an address. -/
theorem Holds.unique {t' : RBTree Cell} {par par' : Ptr} (h : Holds T t par) (h' : Holds T t' par')
    (hne : ∀ p ∈ addrs t, p ≠ T.nil) (hne' : ∀ p ∈ addrs t', p ≠ T.nil) (hptr : ptrOf T.nil t = ptrOf T.nil t') :
    t = t' := by
  induction t generalizing t' par par' with
  | nil =>
    cases t' with
    | nil => rfl
    | node c' l' e' r' => exact absurd hptr.symm (hne' e'.ptr (by simp [addrs, RBTree.toList]))
  | node c l e r ihl ihr =>
    cases t' with
    | nil => exact absurd hptr (hne e.ptr (by simp [addrs, RBTree.toList]))
    | node c' l' e' r' =>
      obtain ⟨hmem, hl, hr⟩ := h
      obtain ⟨hmem', hl', hr'⟩ := h'
      rw [ptrOf_node, ptrOf_node] at hptr
      rw [← hptr, hmem, Option.some.injEq] at hmem'
      simp only [Cell.node, Side.pick, RbtreeNode.mk.injEq, Option.some.injEq] at hmem'
      obtain ⟨rfl, hptrr, hptrl, -, hkey, hvalue, htime⟩ := hmem'
      have hcell : e = e' := by
        cases e
        cases e'
        simp_all
      have hsub : ∀ p, p ∈ addrs l ∨ p ∈ addrs r → p ≠ T.nil := fun p hp => hne p (by
        simp only [addrs, RBTree.toList, List.map_append, List.map_cons, List.mem_append, List.mem_cons] at hp ⊢
        tauto)
      have hsub' : ∀ p, p ∈ addrs l' ∨ p ∈ addrs r' → p ≠ T.nil := fun p hp => hne' p (by
        simp only [addrs, RBTree.toList, List.map_append, List.map_cons, List.mem_append, List.mem_cons] at hp ⊢
        tauto)
      rw [ihl hl hl' (fun p hp => hsub p (Or.inl hp)) (fun p hp => hsub' p (Or.inl hp)) hptrl,
        ihr hr hr' (fun p hp => hsub p (Or.inr hp)) (fun p hp => hsub' p (Or.inr hp)) hptrr, hcell]

theorem Rep.unique {t' : RBTree Cell} (h : Rep T t) (h' : Rep T t') : t = t' :=
  h.linked.1.unique h'.linked.1 (fun p hp => (h.live p hp).1) (fun p hp => (h'.live p hp).1)
    (h.linked.2.symm.trans h'.linked.2)

end Tree

namespace EngineKind

/-- Whatever records of the tree cannot be written, one of them is on the last path. The other engines leave their loops
    at the first error. -/
def ErrorsReach (disk : Disk) : (kind : EngineKind) → kind.Store → Prop
  | .rbtree => fun T => ∀ t, Rep T t → disk 0 = none → ∀ out lost,
      unwritten disk t ⟨int32 t.toList.length, 1⟩ = some (out, lost) → lost ≠ [] → ∃ e ∈ lost, e ∈ lastPath t
  | _ => fun _ => True

end EngineKind

section Save
variable {disk : Disk} {T : Rbtree} {t : RBTree Cell}

/-- The save of a tree returns 0 when the count is written and no record on the last path is left out. -/
theorem Rep.save_zero_iff (h : Rep T t) {file : List UInt8} : kvsRbtreeSave disk T = some (file, 0) ↔
    disk 0 = none ∧ ∃ out lost, unwritten disk t ⟨int32 t.toList.length, 1⟩ = some (out, lost) ∧
      (∀ e ∈ lost, e ∉ lastPath t) ∧ out.bytes = file := by
  have hrep : Rep T (plug [] t) := h
  rw [h.save_eq, saveFile_zero_iff]
  have hwalk := hrep.saveNode_unwritten (Nat.lt_succ_of_lt h.length_lt) disk
  constructor
  · rintro ⟨o, out, hw, hrecords, hfile⟩
    obtain ⟨hdisk, rfl⟩ := fwrite_int32_iff.mp hw
    rcases hwalk ⟨int32 t.toList.length, 1⟩ with ⟨-, hs⟩ | ⟨o, lost, ret, hu, hs, hcode⟩
    · cases hs.symm.trans hrecords
    · obtain ⟨rfl, rfl⟩ := Prod.mk.inj (Option.some.inj (hs.symm.trans hrecords))
      exact ⟨hdisk, o, lost, hu, hcode.mp rfl, hfile⟩
  · rintro ⟨hdisk, out, lost, hu, hlost, hfile⟩
    rcases hwalk ⟨int32 t.toList.length, 1⟩ with ⟨hnone, -⟩ | ⟨o, lost', ret, hu', hs, hcode⟩
    · rw [hu] at hnone
      cases hnone
    · obtain ⟨rfl, rfl⟩ := Prod.mk.inj (Option.some.inj (hu.symm.trans hu'))
      obtain rfl := hcode.mpr hlost
      exact ⟨_, out, fwrite_int32_iff.mpr ⟨hdisk, rfl⟩, hs, hfile⟩

/-- The walk leaves out nothing when the whole tree is written. -/
theorem Rep.writesWhole_iff (h : Rep T t) {file : List UInt8} : EngineKind.rbtree.WritesWhole disk T file ↔
    disk 0 = none ∧ ∃ out, unwritten disk t ⟨int32 t.toList.length, 1⟩ = some (out, []) ∧ out.bytes = file := by
  have hrep : Rep T (plug [] t) := h
  have hcount : rbtreeEngine.count T = some (t.toList.length : Int) := hrep.count
  constructor
  · rintro ⟨totalCount, es, out, hn, ⟨t', h', hes⟩, hw, hfile⟩
    obtain rfl := h.unique h'
    obtain rfl := Option.some.inj (hn.symm.trans hcount)
    obtain ⟨o, hfirst, hw⟩ := writeAll_cons.mp hw
    obtain ⟨hdisk, rfl⟩ := fwrite_int32_iff.mp hfirst
    exact ⟨hdisk, out, unwritten_nil_iff.mpr ⟨es, hes.symm, hw⟩, hfile⟩
  · rintro ⟨hdisk, out, hu, hfile⟩
    obtain ⟨es, hes, hw⟩ := unwritten_nil_iff.mp hu
    exact ⟨_, es, out, hcount, ⟨t, h, hes.symm⟩, writeAll_cons.mpr ⟨_, fwrite_int32_iff.mpr ⟨hdisk, rfl⟩, hw⟩, hfile⟩

theorem Rep.savesTree_iff (h : Rep T t) :
    EngineKind.rbtree.SavesWhole disk T ↔ EngineKind.rbtree.ErrorsReach disk T := by
  constructor
  · intro hwhole t' h' hdisk out lost hu hlost
    obtain rfl := h.unique h'
    by_contra hpath
    simp only [not_exists, not_and] at hpath
    obtain ⟨-, out', hu', -⟩ := h.writesWhole_iff.mp
      (hwhole out.bytes (h.save_zero_iff.mpr ⟨hdisk, out, lost, hu, hpath, rfl⟩))
    rw [hu, Option.some.injEq, Prod.mk.injEq] at hu'
    exact hlost hu'.2
  · intro hreach file hs
    obtain ⟨hdisk, out, lost, hu, hpath, hfile⟩ := h.save_zero_iff.mp hs
    have hnil : lost = [] := by
      by_contra hlost
      obtain ⟨e, he, hlast⟩ := hreach t h hdisk out lost hu hlost
      exact hpath e he hlast
    exact h.writesWhole_iff.mpr ⟨hdisk, out, hnil ▸ hu, hfile⟩

end Save

namespace EngineKind

/-- Of every store that calls lead to, whatever their allocations come to, and on every disk: a save that returns 0 has
    written the whole store, unless the tree loses the error of a left subtree. -/
theorem savesWhole_iff {kind : EngineKind} {calls : List Call} {s : kind.Store} {outs : List Ret}
    (hrun : Run.runs kind.engine.exec kind.created calls = some (s, outs)) (disk : Disk) :
    kind.SavesWhole disk s ↔ kind.ErrorsReach disk s := by
  have h : kind.Sound s := kind.keeps.runs kind.laws.set_eq kind.laws.modify_eq kind.created_sound hrun
  cases kind with
  | array =>
    obtain ⟨items, hst, -⟩ := h
    exact iff_of_true (array_savesWhole hst) trivial
  | rbtree =>
    obtain ⟨t, hi⟩ := h
    exact hi.rep.savesTree_iff
  | hash => exact iff_of_true (hash_savesWhole s) trivial
  | skiptable =>
    obtain ⟨L, hi⟩ := h
    exact iff_of_true (skip_savesWhole hi) trivial

end EngineKind

/-- The disk that fails when the key of the left child of the root is to be written. -/
def failsOnce : Disk := fun n => if n = 6 then some 0 else none

/-- A save of three keys to a full disk, and to one that fails once. -/
theorem savesWhole_iff_threeSets : ∃ T outs,
    Run.runs rbtreeEngine.exec kvsRbtreeCreate threeSets = some (T, outs) ∧
    (EngineKind.rbtree.SavesWhole (fun _ => some 0) T ↔ EngineKind.rbtree.ErrorsReach (fun _ => some 0) T) ∧
    (EngineKind.rbtree.SavesWhole failsOnce T ↔ EngineKind.rbtree.ErrorsReach failsOnce T) := by
  have hiff := @EngineKind.savesWhole_iff .rbtree threeSets _ _ rfl
  exact ⟨_, _, rfl, hiff _, hiff _⟩

theorem rbtree_save_loses_error : ∃ T outs file, Run.runs rbtreeEngine.exec kvsRbtreeCreate threeSets = some (T, outs) ∧
    kvsRbtreeSave failsOnce T = some (file, 0) ∧ ¬EngineKind.rbtree.SavesWhole failsOnce T := by
  refine ⟨_, _, _, rfl, rfl, fun hwhole => ?_⟩
  obtain ⟨totalCount, es, out, -, ⟨t, ht, hes⟩, hw, -⟩ := hwhole _ rfl
  have hrep : Rep _ (plug [] t) := ht
  have hlen : (t.toList.length : Int) = 3 := (Option.some.inj hrep.count).symm
  have hentries : es.length = t.toList.length := by
    rw [← (RBTree.preorder_perm t).length_eq]
    simpa using congrArg List.length hes
  have hfail := writeAll_disk hw 6 (by rw [length_fileObjects]; omega)
  cases hfail

end KvStore
