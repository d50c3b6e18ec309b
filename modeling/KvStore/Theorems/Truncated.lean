import KvStore.Theorems.LoadComplete
import KvStore.Theorems.SaveErrors

/-! Loading a file that was cut off. The count at its front promises more records than are left, so that the loop comes
    to an error, and by then it has stored the records that are whole. -/

namespace KvStore
open IntCodec FiniteMap RedBlack

/-! ### The file of a store -/

/-- The lengths of the entry, its terminators included, are values of type `int`. -/
def EntryFits (e : CString × CharPtr) : Prop := e.1.strlen + 1 < 2147483648 ∧ ∀ v, e.2 = .str v → v.strlen + 1 < 2147483648

namespace EngineKind

/-- So are those of every entry of the store. -/
def EntriesFit (kind : EngineKind) (s : kind.Store) : Prop := ∀ es, kind.Entries s es → ∀ e ∈ es, EntryFits e

end EngineKind

section Saved
variable {out o : OutFile} {es : List (CString × CString)} {e : CString × CString}

theorem writeAll_record (h : Storable 1 e) :
    writeAll .good out (recordObjects 1 e) = some (out.append (recordBytes (storedRecord 1 e)) 4) := by
  have hneg : (-1 : Int) < 0 := by decide
  have hrecord : saveRecord .good (-1) 1 out (.str e.1) (.str e.2) =
      some (out.append (recordBytes (storedRecord 1 e)) 4, 0) := saveRecord_good (Nat.le_refl 1) h.1 h.2
  obtain ⟨v, hv, hw⟩ := (saveRecord_zero_iff hneg).mp hrecord
  cases hv
  exact hw

/-- Without errors the objects of the records are the records. -/
theorem writeAll_records (h : ∀ e ∈ es, Storable 1 e) (hw : writeAll .good out (es.flatMap (recordObjects 1)) = some o) :
    o.bytes = out.bytes ++ (es.map (storedRecord 1)).flatMap recordBytes := by
  induction es generalizing out with
  | nil =>
    cases hw
    exact (List.append_nil _).symm
  | cons e es ih =>
    rw [List.forall_mem_cons] at h
    obtain ⟨o₁, hfirst, hw⟩ := writeAll_append.mp hw
    rw [writeAll_record h.1, Option.some.injEq] at hfirst
    subst hfirst
    rw [ih h.2 hw, List.map_cons, List.flatMap_cons, OutFile.append_bytes, List.append_assoc]

theorem storable_of_fits (h : EntryFits (e.1, .str e.2)) : Storable 1 e := storable_iff.mpr ⟨h.1, h.2 e.2 rfl⟩

/-- Without errors and with lengths that fit, the walk over a tree leaves out nothing. -/
theorem unwritten_good {t : RBTree Cell} {lost : List Cell} (hfits : ∀ e ∈ t.toList, EntryFits (e.key, e.value))
    (h : unwritten .good t out = some (o, lost)) : lost = [] := by
  induction t generalizing out o lost with
  | nil =>
    cases h
    rfl
  | node c l e r ihl ihr =>
    rw [RBTree.toList, List.forall_mem_append, List.forall_mem_cons] at hfits
    obtain ⟨hl, he, hr⟩ := hfits
    simp only [unwritten, Option.bind_eq_bind, Option.bind_eq_some_iff] at h
    obtain ⟨⟨o₁, res⟩, hrec, h⟩ := h
    have hres : res = 0 := by
      cases hvalue : e.value with
      | null =>
        rw [hvalue] at hrec
        cases hrec
      | freed =>
        rw [hvalue] at hrec
        cases hrec
      | str v =>
        rw [hvalue] at hrec he
        have hgood := storable_of_fits (e := (e.key, v)) he
        rw [saveRecord_good (Nat.le_refl 1) hgood.1 hgood.2] at hrec
        cases hrec
        rfl
    subst hres
    obtain ⟨⟨o₂, left⟩, hleft, h⟩ := Option.bind_eq_some_iff.mp h
    obtain ⟨⟨o₃, right⟩, hright, h⟩ := Option.bind_eq_some_iff.mp h
    cases h
    rw [ihl hl hleft, ihr hr hright]
    rfl

namespace EngineKind
variable {kind : EngineKind} {calls : List Call} {t : kind.Store} {outs : List Ret} {file : List UInt8}

/-- The engines whose entries are all found by `set` save the count of their entries. -/
theorem count_entries (hkind : kind ≠ .skiptable)
    (hrun : Run.runs kind.engine.exec kind.created calls = some (t, outs)) {entries : List (CString × CharPtr)}
    (hes : kind.Entries t entries) : kind.engine.count t = some (entries.length : Int) ∧ ∀ e ∈ entries, kind.Key e.1 := by
  have hsound : kind.Sound t := kind.keeps.runs kind.laws.set_eq kind.laws.modify_eq kind.created_sound hrun
  cases kind with
  | array =>
    obtain ⟨items, hst, rfl⟩ := hes
    refine ⟨?_, fun _ _ => trivial⟩
    have hcount : arrayEngine.count t = some (t.total : Int) := rfl
    rw [List.length_map, ← hst.total]
    exact hcount
  | rbtree =>
    obtain ⟨tree, hrep, rfl⟩ := hes
    refine ⟨?_, fun _ _ => trivial⟩
    have hrep' : Rep t (plug [] tree) := hrep
    have hcount : rbtreeEngine.count t = some (tree.toList.length : Int) := hrep'.count
    rw [List.length_map, (RBTree.preorder_perm tree).length_eq]
    exact hcount
  | hash =>
    have h : HashSound t := hashSound_keeps.runs hashLaws.set_eq hashLaws.modify_eq hashCreate_sound hrun
    have hlist : entries = t.entries.map fun e => (e.1, e.2.1) := hes
    rw [hlist]
    refine ⟨?_, fun e he => ?_⟩
    · have hcount : hashEngine.count t = some t.count := rfl
      rw [List.length_map, ← h.count]
      exact hcount
    · obtain ⟨a, ha, rfl⟩ := List.mem_map.mp he
      obtain ⟨i, hi, ha⟩ := List.mem_flatMap.mp ha
      obtain ⟨n, hn, rfl⟩ := List.mem_map.mp ha
      have hslot : KvStore.hash n.key maxTableSize = i := h.placed i n hn
      have hlt := List.mem_range.mp hi
      exact ⟨hslot ▸ Int.natCast_nonneg i, hslot ▸ Int.ofNat_lt.mpr hlt⟩
  | skiptable => exact absurd rfl hkind

/-- What a store lists as its entries is determined by it. -/
theorem entries_unique (hkind : kind ≠ .skiptable) {es es' : List (CString × CharPtr)} (h : kind.Entries t es)
    (h' : kind.Entries t es') : es = es' := by
  cases kind with
  | array =>
    obtain ⟨items, hst, rfl⟩ := h
    obtain ⟨items', hst', rfl⟩ := h'
    have hlen : items.length = items'.length := hst.total.symm.trans hst'.total
    refine List.ext_getElem (by simpa using hlen) fun i hi hi' => ?_
    rw [List.length_map] at hi hi'
    have hslot := hst.slot i _ (List.getElem?_eq_getElem hi)
    rw [hst'.slot i _ (List.getElem?_eq_getElem hi'), Option.some.injEq] at hslot
    rw [List.getElem_map, List.getElem_map]
    exact Prod.ext (CharPtr.str.inj (congrArg ArrayItem.key hslot)).symm (congrArg ArrayItem.value hslot).symm
  | rbtree =>
    obtain ⟨tree, hrep, rfl⟩ := h
    obtain ⟨tree', hrep', rfl⟩ := h'
    rw [hrep.unique hrep']
  | hash => exact Eq.trans h h'.symm
  | skiptable => exact absurd rfl hkind

theorem entriesFit_of (hkind : kind ≠ .skiptable) {es : List (CString × CharPtr)} (h : kind.Entries t es)
    (hfits : ∀ e ∈ es, EntryFits e) : kind.EntriesFit t := fun _ hes => entries_unique hkind hes h ▸ hfits

theorem savesWhole_good (hkind : kind ≠ .skiptable)
    (hrun : Run.runs kind.engine.exec kind.created calls = some (t, outs)) (hfits : kind.EntriesFit t) :
    kind.SavesWhole .good t := by
  have hsound : kind.Sound t := kind.keeps.runs kind.laws.set_eq kind.laws.modify_eq kind.created_sound hrun
  cases kind with
  | array =>
    obtain ⟨items, hst, -⟩ := hsound
    exact array_savesWhole hst
  | rbtree =>
    obtain ⟨tree, hi⟩ := hsound
    refine hi.rep.savesTree_iff.mpr fun tree' hrep' _ out lost hu hlost => absurd ?_ hlost
    have hentries : ∀ e ∈ tree'.toList, EntryFits (e.key, e.value) := by
      intro e he
      refine hfits _ ⟨tree', hrep', rfl⟩ _ (List.mem_map.mpr ⟨e, ?_, rfl⟩)
      exact (RBTree.preorder_perm tree').mem_iff.mpr he
    exact unwritten_good hentries hu
  | hash => exact hash_savesWhole t
  | skiptable => exact absurd rfl hkind

/-- A store whose lengths fit is saved as the file of its entries. -/
theorem saved_file (hkind : kind ≠ .skiptable)
    (hrun : Run.runs kind.engine.exec kind.created calls = some (t, outs))
    (hsave : kind.backend.save .good t = some (file, 0)) (hfits : kind.EntriesFit t)
    (hes : kind.Entries t (es.map fun e => (e.1, .str e.2))) :
    file = fileBytes (es.map (storedRecord 1)) ∧ ∀ e ∈ es, Storable 1 e := by
  have hstorable : ∀ e ∈ es, Storable 1 e := fun e he =>
    storable_of_fits (hfits _ hes _ (List.mem_map.mpr ⟨e, he, rfl⟩))
  obtain ⟨totalCount, es', out, hcount, hes', hw, rfl⟩ := savesWhole_good hkind hrun hfits file hsave
  have hlist := entries_unique hkind hes' hes
  have hinj : Function.Injective fun e : CString × CString => (e.1, CharPtr.str e.2) := by
    rintro ⟨k, v⟩ ⟨k', v'⟩ h
    simpa using h
  obtain rfl : es' = es := List.map_injective_iff.mpr hinj hlist
  obtain ⟨o₁, hfirst, hw⟩ := writeAll_cons.mp hw
  obtain ⟨-, rfl⟩ := fwrite_int32_iff.mp hfirst
  have hnul : kind.nul = 1 := by
    cases kind with
    | skiptable => exact absurd rfl hkind
    | _ => rfl
  rw [hnul] at hw
  rw [(count_entries hkind hrun hes).1, Option.some.injEq, List.length_map] at hcount
  refine ⟨?_, hstorable⟩
  rw [writeAll_records hstorable hw, fileBytes, ← hcount, List.length_map]
  rfl

end EngineKind
end Saved

/-! ### Reading what is left of it -/

/-- The records that end within the first `m` bytes. -/
def wholeRecords : Nat → List Record → List Record
  | _, [] => []
  | m, r :: rs =>
    if (recordBytes r).length ≤ m then r :: wholeRecords (m - (recordBytes r).length) rs else []

section Read
variable {b rest p : List UInt8} {err : Int} {env : Nat → Env} {r : Record} {rs : List Record} {m : Nat}

theorem length_objectBytes (b : List UInt8) : (objectBytes b).length = 4 + b.length := by simp [objectBytes]

/-- Every record takes bytes. -/
theorem flatMap_recordBytes_ne_nil {rs : List Record} (h : rs ≠ []) : rs.flatMap recordBytes ≠ [] := by
  obtain ⟨r, hr⟩ := List.exists_mem_of_ne_nil rs h
  intro hempty
  have hrecord := congrArg List.length (List.flatMap_eq_nil_iff.mp hempty r hr)
  rw [recordBytes, List.length_append, length_objectBytes, List.length_nil] at hrecord
  omega

/-- An object that is cut off cannot be read. -/
theorem loadObject_cut {alloc : Bool} (hb : Writable b) (hm : m < (objectBytes b).length) :
    ∃ code ≤ err, loadObject alloc err ((objectBytes b).take m) = .error code := by
  cases hload : loadObject alloc err ((objectBytes b).take m) with
  | error code => exact ⟨code, loadObject_error hload, rfl⟩
  | ok q =>
    obtain ⟨b', rest⟩ := q
    obtain ⟨-, hb', hfile⟩ := loadObject_ok hload
    -- the length at the front is that of the whole object
    have hlen := congrArg List.length hfile
    rw [List.length_take, List.length_append, length_objectBytes, length_objectBytes] at hlen
    rw [length_objectBytes] at hm
    have hfront := congrArg (List.take 4) hfile
    rw [List.take_take, Nat.min_eq_left (by omega), objectBytes, objectBytes, List.append_assoc,
      List.take_left' (length_int32 _), List.take_left' (length_int32 _)] at hfront
    have hvalue := congrArg ofInt32 hfront
    rw [ofInt32_int32, ofInt32_int32, hb.bmod_length, hb'.bmod_length] at hvalue
    omega

theorem readRecords_error_key {n : Nat} {code : Int} (h : loadObject ((env 0).alloc 0) (-3) p = .error code) :
    readRecords env (n + 1) p = ([], code) := by
  rw [readRecords, h]

theorem readRecords_error_value {n : Nat} {key : List UInt8} {code : Int}
    (hkey : loadObject ((env 0).alloc 0) (-3) p = .ok (key, rest))
    (h : loadObject ((env 0).alloc 1) (-6) rest = .error code) : readRecords env (n + 1) p = ([], code) := by
  rw [readRecords, hkey]
  simp only
  rw [h]

/-- A record that is cut off ends the loop with an error. -/
theorem readRecords_cut {n : Nat} (henv : (env 0).Allocates) (hr : r.Whole) (hm : m < (recordBytes r).length) :
    ∃ code < 0, readRecords env (n + 1) ((recordBytes r).take m) = ([], code) := by
  rw [recordBytes, List.length_append] at hm
  rw [recordBytes, List.take_append]
  by_cases hkey : m < (objectBytes r.1).length
  · have hcut : ∃ code ≤ -3, loadObject ((env 0).alloc 0) (-3) ((objectBytes r.1).take m) = .error code :=
      loadObject_cut hr.1 hkey
    obtain ⟨code, hle, hcode⟩ := hcut
    have hzero : m - (objectBytes r.1).length = 0 := by omega
    rw [hzero, List.take_zero, List.append_nil]
    exact ⟨code, by omega, readRecords_error_key hcode⟩
  · have hcut : ∃ code ≤ -6, loadObject ((env 0).alloc 1) (-6)
        ((objectBytes r.2).take (m - (objectBytes r.1).length)) = .error code := loadObject_cut hr.2 (by omega)
    obtain ⟨code, hle, hcode⟩ := hcut
    have hread : loadObject ((env 0).alloc 0) (-3) (objectBytes r.1 ++ (objectBytes r.2).take
        (m - (objectBytes r.1).length)) = .ok (r.1, (objectBytes r.2).take (m - (objectBytes r.1).length)) := by
      rw [henv 0, loadObject_objectBytes hr.1]
    rw [List.take_of_length_le (by omega)]
    exact ⟨code, by omega, readRecords_error_value hread hcode⟩

/-- Of records that are cut off the whole ones are read, and then there is an error. -/
theorem readRecords_take : ∀ {rs : List Record} {env : Nat → Env} {m : Nat}, (∀ i, (env i).Allocates) →
    (∀ r ∈ rs, r.Whole) → m < (rs.flatMap recordBytes).length →
    ∃ code < 0, readRecords env rs.length ((rs.flatMap recordBytes).take m) = (wholeRecords m rs, code)
  | [], _, _, _, _, hm => absurd hm (Nat.not_lt_zero _)
  | r :: rs, env, m, henv, hrs, hm => by
    rw [List.forall_mem_cons] at hrs
    rw [List.flatMap_cons, List.length_append] at hm
    rw [List.flatMap_cons, List.take_append, wholeRecords, List.length_cons]
    by_cases hr : (recordBytes r).length ≤ m
    · have ih : ∃ code < 0, readRecords (fun i => env (i + 1)) rs.length
          ((rs.flatMap recordBytes).take (m - (recordBytes r).length)) =
            (wholeRecords (m - (recordBytes r).length) rs, code) :=
        readRecords_take (fun i => henv (i + 1)) hrs.2 (by omega)
      obtain ⟨code, hneg, hcode⟩ := ih
      rw [List.take_of_length_le hr, readRecords_cons (henv 0) hrs.1, hcode, if_pos hr]
      exact ⟨code, hneg, rfl⟩
    · have hzero : m - (recordBytes r).length = 0 := by omega
      rw [hzero, List.take_zero, List.append_nil, if_neg hr]
      exact readRecords_cut (henv 0) hrs.1 (Nat.lt_of_not_le hr)

/-- A proper prefix of a file is read as far as its records are whole, and ends in an error. -/
theorem readFile_cut (henv : ∀ i, (env i).Allocates) (hrs : ∀ r ∈ rs, r.Whole) (hlen : rs.length < 2147483648)
    (hp : p <+: fileBytes rs) (hne : p ≠ fileBytes rs) :
    ∃ code < 0, readFile env p = (wholeRecords (p.length - 4) rs, code) := by
  have hlt : p.length < (fileBytes rs).length :=
    lt_of_le_of_ne hp.length_le fun heq => hne (hp.eq_of_length heq)
  rw [List.prefix_iff_eq_take.mp hp] at hne ⊢
  rw [fileBytes, List.length_append, length_int32] at hlt
  rw [fileBytes, List.take_append, length_int32]
  have hmin : ((int32 rs.length).take p.length ++ (rs.flatMap recordBytes).take (p.length - 4)).length - 4 =
      p.length - 4 := by
    rw [List.length_append, List.length_take, List.length_take, length_int32]
    omega
  rw [hmin]
  by_cases hshort : p.length < 4
  · have hwhole : wholeRecords (p.length - 4) rs = [] := by
      have hzero : p.length - 4 = 0 := by omega
      rw [hzero]
      cases rs with
      | nil => rfl
      | cons r rs =>
        have hpos : ¬(recordBytes r).length ≤ 0 := by simp [recordBytes, objectBytes]
        rw [wholeRecords, if_neg hpos]
    have hfits : ((int32 rs.length).take p.length ++ (rs.flatMap recordBytes).take (p.length - 4)).length < 4 := by
      rw [List.length_append, List.length_take, List.length_take, length_int32]
      omega
    rw [hwhole, readFile, fread, if_pos (Or.inr hfits)]
    exact ⟨-2, by decide, rfl⟩
  · have hrange : IsInt32 rs.length := ⟨by omega, by omega⟩
    have htake : (int32 (rs.length : Int)).take p.length = int32 rs.length :=
      List.take_of_length_le (by rw [length_int32]; omega)
    rw [htake, readFile_int32 hrange, Int.toNat_natCast]
    exact readRecords_take henv hrs (by omega)

end Read

/-! ### The load -/

/-- What the records say about a key: the value of the first one that has it. -/
def valueIn (rs : List Record) (k : CString) : Option CString := (rs.map fun r => (r.key, r.value)).lookup k

/-- The store `s'` is `s` with those of the records that have keys which are not in `s`. -/
structure Engine.HasAdded {σ : Type} (E : Engine σ) (s s' : σ) (rs : List Record) : Prop where
  kept : ∀ k, E.Present s k → E.SameAt s s' k
  added : ∀ k, ¬E.Present s k → ∀ v, valueIn rs k = some v → E.Present s' k ∧ E.get s' k = some (.str v)
  others : ∀ k, ¬E.Present s k → valueIn rs k = none → E.SameAt s s' k

/-- The whole records of a cut file of the entries `es`. -/
def cutRecords (es : List (CString × CString)) (p : List UInt8) : List Record :=
  wholeRecords (p.length - 4) (es.map (storedRecord 1))

namespace EngineKind

/-- There is room for the missing keys of the records. -/
def HasRoom (kind : EngineKind) (s : kind.Store) (rs : List Record) : Prop :=
  ∀ n, kind.engine.count s = some n → kind.limits.Room (n + (kind.engine.missing s rs).card)

/-- Loading a proper prefix of a saved file returns a negative code, and of the prefix it adds exactly the whole records
    with missing keys. The condition is one on the saved store, on the store that is loaded into, and on the whole records. -/
def DetectsTruncation (kind : EngineKind) (cond : kind.Store → kind.Store → List Record → Prop) : Prop :=
  ∀ (calls calls' : List Call) (t s : kind.Store) (outs outs' : List Ret) (es : List (CString × CString))
    (file p : List UInt8) (env : Nat → Env), Run.runs kind.engine.exec kind.created calls = some (t, outs) →
    kind.backend.save .good t = some (file, 0) → kind.Entries t (es.map fun e => (e.1, .str e.2)) →
    Run.runs kind.engine.exec kind.created calls' = some (s, outs') → p <+: file → p ≠ file →
    (∀ i, (env i).Allocates) → kind.HasRoom s (cutRecords es p) → cond t s (cutRecords es p) →
    ∃ s' code, kind.backend.load env s p = some (s', code) ∧ code < 0 ∧ kind.engine.HasAdded s s' (cutRecords es p)

/-- The lengths and the count of the saved store are values of type `int`, and no item of the other store has one of the
    keys without a value. -/
def CutCondition (kind : EngineKind) (t s : kind.Store) (rs : List Record) : Prop :=
  kind.EntriesFit t ∧ kind.engine.CountFits t ∧ ∀ r ∈ rs, ¬kind.limits.Stranded s r.key

end EngineKind

section Load
variable {m : Nat} {rs : List Record} {k : CString} {e : CString × CString}

theorem wholeRecords_subset : ∀ (m : Nat) (rs : List Record), wholeRecords m rs ⊆ rs
  | _, [] => List.Subset.refl _
  | m, r :: rs => by
    rw [wholeRecords]
    split
    · exact List.cons_subset_cons r (wholeRecords_subset _ rs)
    · exact List.nil_subset _

theorem valueIn_eq_none : valueIn rs k = none ↔ k ∉ rs.map Record.key := by
  rw [valueIn, List.lookup_eq_none_iff]
  constructor
  · intro h hk
    obtain ⟨r, hr, rfl⟩ := List.mem_map.mp hk
    simpa using h (r.key, r.value) (List.mem_map.mpr ⟨r, hr, rfl⟩)
  · intro h p hp
    obtain ⟨r, hr, rfl⟩ := List.mem_map.mp hp
    have hne : k ≠ r.key := fun hk => h (hk ▸ List.mem_map_of_mem hr)
    simpa using hne

theorem key_storedRecord : Record.key (storedRecord 1 e) = e.1 := by
  rw [Record.key, storedRecord, CString.object_one, CString.ofBytes_buf]

theorem terminated_storedRecord : Record.Terminated (storedRecord 1 e) := by
  rw [Record.Terminated, storedRecord, CString.object_one, CString.object_one]
  exact ⟨by simp [CString.buf], by simp [CString.buf]⟩

namespace EngineKind

theorem limits_key {kind : EngineKind} (hkind : kind ≠ .skiptable) : kind.limits.key = kind.Key := by
  cases kind with
  | skiptable => exact absurd rfl hkind
  | _ => rfl

/-- A cut file is told from a whole one, and what is whole of it is loaded. -/
theorem truncation_detected {kind : EngineKind} (hkind : kind ≠ .skiptable) :
    kind.DetectsTruncation kind.CutCondition := by
  rintro calls calls' t s outs outs' es file p env hrun hsave hes hrun' hp hne henv hroom ⟨hfits, hcount, hfound⟩
  obtain ⟨I, A, hreached⟩ := adds hkind
  obtain ⟨rfl, hstorable⟩ := saved_file hkind hrun hsave hfits hes
  obtain ⟨hn, hkeys⟩ := count_entries hkind hrun hes
  have hlen : (es.map (storedRecord 1)).length < 2147483648 := by
    have hlt := hcount _ hn
    rw [List.length_map] at hlt ⊢
    exact_mod_cast hlt
  have hwhole : ∀ r ∈ es.map (storedRecord 1), Record.Whole r := by
    intro r hr
    obtain ⟨e, he, rfl⟩ := List.mem_map.mp hr
    exact hstorable e he
  obtain ⟨code, hneg, hread⟩ := readFile_cut henv hwhole hlen hp hne
  have hrecord : ∀ r ∈ cutRecords es p, r.Terminated ∧ kind.limits.key r.key ∧ ¬kind.limits.Stranded s r.key := by
    intro r hr
    obtain ⟨e, he, rfl⟩ := List.mem_map.mp (wholeRecords_subset _ _ hr)
    refine ⟨terminated_storedRecord, ?_, hfound _ hr⟩
    rw [limits_key hkind, key_storedRecord]
    exact hkeys (e.1, .str e.2) (List.mem_map.mpr ⟨e, he, rfl⟩)
  obtain ⟨s', hs, hadded⟩ := A.setAll_adds henv (hreached hrun') hrecord hroom
  obtain ⟨-, -, hframe⟩ := A.setAll_frame (hreached hrun') hs
  refine ⟨s', code, ?_, hneg, fun k hk => hframe k (Or.inl hk), hadded, fun k _ hnone => ?_⟩
  · rw [kind.load_eq, setBuffers_engine hkind, hread]
    exact congrArg (Option.map fun s' => (s', code)) hs
  · exact hframe k (Or.inr (valueIn_eq_none.mp hnone))

end EngineKind
end Load

section Array
variable {T : KvArray} {items : List (CString × CharPtr × UInt64)} {k k' v v' : CString} {rs : List Record}

theorem array_entriesFit (h : T.Stores items) (hfits : ∀ e ∈ items, EntryFits (e.1, e.2.1)) :
    EngineKind.array.EntriesFit T := by
  refine EngineKind.entriesFit_of (by decide) ⟨items, h, rfl⟩ fun e he => ?_
  obtain ⟨a, ha, rfl⟩ := List.mem_map.mp he
  exact hfits a ha

theorem array_countFits (h : T.Stores items) : arrayEngine.CountFits T := by
  intro n hn
  have htotal : (T.total : Int) = n := Option.some.inj hn
  have hfits := h.fits
  rw [← h.total] at hfits
  have hsize : kvsArraySize < 2147483648 := by decide
  omega

theorem array_hasRoom (h : T.Stores items) (hlen : items.length + rs.length ≤ kvsArraySize) :
    EngineKind.array.HasRoom T rs := by
  intro n hn
  have htotal : (T.total : Int) = n := Option.some.inj hn
  have hcard : (arrayEngine.missing T rs).card ≤ rs.length := by
    have hle := List.toFinset_card_le (rs.map Record.key)
    rw [List.length_map] at hle
    exact (Finset.card_filter_le ..).trans hle
  have hroom : n + (arrayEngine.missing T rs).card ≤ kvsArraySize := by
    rw [← htotal, h.total]
    omega
  exact hroom

theorem array_oneSet (k v : CString) : ∃ T, arrayEngine.exec kvsArrayCreate (.set (.calm 0) k v) = some (T, .code 0) ∧
    T.Stores [(k, .str v, 0)] := by
  have hcreated : kvsArrayCreate.Stores [] := ⟨rfl, Nat.zero_le _, by simp⟩
  obtain ⟨T, hs, h⟩ := hcreated.set_new (k := k) (by simp) (by decide) (Env.calm_allocates 0) v
  have hset : arrayEngine.set (.calm 0) kvsArrayCreate k v = some (T, 0) := hs
  exact ⟨T, Engine.exec_set hset, h⟩

/-- Two keys that are set one after the other. -/
theorem array_twoSets (k k' : CString) (hne : k' ≠ k) (v v' : CString) : ∃ T outs,
    Run.runs arrayEngine.exec kvsArrayCreate [.set (.calm 0) k v, .set (.calm 0) k' v'] = some (T, outs) ∧
    T.Stores [(k, .str v, 0), (k', .str v', 0)] := by
  obtain ⟨T₁, hexec, h₁⟩ := array_oneSet k v
  obtain ⟨T₂, hs, h₂⟩ := h₁.set_new (by simpa using hne) (by simp [kvsArraySize]) (Env.calm_allocates 0) v'
  have hset : arrayEngine.set (.calm 0) T₁ k' v' = some (T₂, 0) := hs
  exact ⟨T₂, _, Run.runs_cons hexec (Run.runs_cons (Engine.exec_set hset) rfl), h₂⟩

/-- A key whose `modify` has failed. -/
theorem array_strandedRun (k v : CString) : ∃ T outs,
    Run.runs arrayEngine.exec kvsArrayCreate [.set (.calm 0) k v, .modify noMemory k v] = some (T, outs) ∧
    T.Stores [(k, .null, 0)] ∧ ArrayStranded T k := by
  obtain ⟨T₁, hexec, h₁⟩ := array_oneSet k v
  have hfirst : T₁.Stores ([] ++ (k, .str v, 0) :: []) := h₁
  obtain ⟨T₂, hs, h₂⟩ := hfirst.modify_failed List.not_mem_nil (by simp) v 2 (rfl : noMemory.alloc 0 = false)
  have hmodify : arrayEngine.modify noMemory T₁ k v = some (T₂, -3) := hs
  refine ⟨T₂, _, Run.runs_cons hexec (Run.runs_cons (Engine.exec_modify hmodify) rfl), h₂, ?_, ?_⟩
  · rw [h₂.find_first List.not_mem_nil]
    simp
  · exact h₂.get_first List.not_mem_nil

end Array

/-- The strings `a` and `b`. -/
def stringA : CString := .ofBytes [97]

def stringB : CString := .ofBytes [98]

/-- The file of the two keys with themselves as values, and its part up to the second record. -/
def twoFile : List UInt8 := fileBytes [([97, 0], [97, 0]), ([98, 0], [98, 0])]

def cutFile : List UInt8 := IntCodec.int32 2 ++ recordBytes ([97, 0], [97, 0])

theorem cutFile_prefix : cutFile <+: twoFile ∧ cutFile ≠ twoFile :=
  ⟨⟨recordBytes ([98, 0], [98, 0]), by decide +kernel⟩, by decide +kernel⟩

theorem cutFile_records :
    cutRecords [(stringA, stringA), (stringB, stringB)] cutFile = [([97, 0], [97, 0])] := by decide +kernel

theorem twoFile_saved {T : KvArray} (h : T.Stores [(stringA, .str stringA, 0), (stringB, .str stringB, 0)]) :
    kvsArraySave .good T = some (twoFile, 0) := by
  refine h.save fun e he => ?_
  rcases List.mem_pair.mp he with rfl | rfl
  · exact ⟨stringA, rfl, storable_iff.mpr (by decide)⟩
  · exact ⟨stringB, rfl, storable_iff.mpr (by decide)⟩

theorem twoFile_fits {T : KvArray} (h : T.Stores [(stringA, .str stringA, 0), (stringB, .str stringB, 0)]) :
    EngineKind.array.EntriesFit T := by
  refine array_entriesFit h fun e he => ?_
  rcases List.mem_pair.mp he with rfl | rfl
  · exact ⟨by decide, fun v hv => CharPtr.str.inj hv ▸ by decide⟩
  · exact ⟨by decide, fun v hv => CharPtr.str.inj hv ▸ by decide⟩

/-- The cut file is loaded into a new array. -/
theorem truncation_detected_cutFile : ∃ T' code,
    EngineKind.array.backend.load (fun _ => .calm 0) EngineKind.array.created cutFile = some (T', code) ∧ code < 0 ∧
    arrayEngine.HasAdded kvsArrayCreate T' [([97, 0], [97, 0])] := by
  obtain ⟨T, outs, hrun, h⟩ := array_twoSets stringA stringB (by decide) stringA stringB
  have hcreated : kvsArrayCreate.Stores [] := ⟨rfl, Nat.zero_le _, by simp⟩
  have hroom : EngineKind.array.HasRoom kvsArrayCreate (cutRecords [(stringA, stringA), (stringB, stringB)] cutFile) := by
    rw [cutFile_records]
    exact array_hasRoom hcreated (by decide)
  have hfree : ∀ r ∈ cutRecords [(stringA, stringA), (stringB, stringB)] cutFile,
      ¬ArrayStranded kvsArrayCreate r.key := by
    rw [cutFile_records]
    rintro r - ⟨hfind, -⟩
    exact hfind (hcreated.find_absent (by simp))
  obtain ⟨T', code, hload, hneg, hadded⟩ := @EngineKind.truncation_detected .array (by decide) _ [] T kvsArrayCreate outs []
    [(stringA, stringA), (stringB, stringB)] twoFile cutFile (fun _ => .calm 0) hrun (twoFile_saved h) ⟨_, h, rfl⟩ rfl
    cutFile_prefix.1 cutFile_prefix.2 (fun _ => Env.calm_allocates 0) hroom
    ⟨twoFile_fits h, array_countFits h, hfree⟩
  rw [cutFile_records] at hadded
  exact ⟨T', code, hload, hneg, hadded⟩

/-- A key that an item has without a value is not found after the load either. -/
theorem truncation_stranded : ¬EngineKind.array.DetectsTruncation fun t _ _ =>
    EngineKind.array.EntriesFit t ∧ arrayEngine.CountFits t := by
  intro hdetects
  obtain ⟨T, outs, hrun, h⟩ := array_twoSets stringA stringB (by decide) stringA stringB
  obtain ⟨S, outs', hrun', hS, hstranded⟩ := array_strandedRun stringA stringA
  have hsound : EngineKind.array.Sound S := ⟨_, hS, by simp⟩
  have hroom : EngineKind.array.HasRoom S (cutRecords [(stringA, stringA), (stringB, stringB)] cutFile) := by
    rw [cutFile_records]
    exact array_hasRoom hS (by decide)
  obtain ⟨S', code, hload, -, hadded⟩ := hdetects _ _ T S outs outs' [(stringA, stringA), (stringB, stringB)] twoFile
    cutFile (fun _ => .calm 0) hrun (twoFile_saved h) ⟨_, h, rfl⟩ hrun' cutFile_prefix.1 cutFile_prefix.2
    (fun _ => Env.calm_allocates 0) hroom ⟨twoFile_fits h, array_countFits h⟩
  rw [cutFile_records] at hadded
  rw [EngineKind.load_eq, Option.map_eq_some_iff] at hload
  obtain ⟨S₁, hset, heq⟩ := hload
  obtain ⟨rfl, -⟩ := Prod.mk.inj heq
  obtain ⟨hsound', hkept, -⟩ := arrayAdds.setAll_frame hsound hset
  have hpresent := (hadded.added stringA (arrayAdds.stranded hsound hstranded) stringA (by decide)).1
  exact arrayAdds.stranded hsound' (hkept stringA hstranded) hpresent

/-- A value whose length leaves 1 in an `int`: its record holds one byte of it and no terminator, and the load reads on
    behind that. -/
theorem truncation_longValue {n : Nat} (hn : n = UInt32.size) : ¬EngineKind.array.DetectsTruncation fun t s rs =>
    arrayEngine.CountFits t ∧ ∀ r ∈ rs, ¬ArrayStranded s r.key := by
  intro hdetects
  obtain ⟨T, outs, hrun, h⟩ := array_twoSets stringA stringB (by decide) (repeated n) stringB
  have hcreated : kvsArrayCreate.Stores [] := ⟨rfl, Nat.zero_le _, by simp⟩
  have hlen : (((repeated n).strlen + 1 : Nat) : Int).bmod UInt32.size = (1 : Nat) := by
    rw [repeated, CString.strlen, List.length_replicate, hn]
    decide
  have hfirst : (repeated n).buf.take 1 = [97] := by
    obtain ⟨n, rfl⟩ : ∃ m, n = m + 1 := ⟨n - 1, by rw [hn]; decide⟩
    rfl
  have hkey : ((stringA.strlen + 1 : Nat) : Int).bmod UInt32.size = (2 : Nat) := by decide
  have hkeyBuf : 0 < 2 ∧ 2 ≤ stringA.buf.length := by decide
  have hitems : List.Forall₂ (fun i r => ∀ out, saveArrayItem .good T out i = some (out.append (recordBytes r) 4, 0))
      [0, 1] [([97, 0], (repeated n).buf.take 1), ([98, 0], [98, 0])] := by
    refine .cons (fun out => ?_) (.cons (fun out => ?_) .nil)
    · rw [saveArrayItem_eq (h.item rfl)]
      exact saveRecord_take hkey hlen hkeyBuf ⟨by decide, by simp [CString.buf]⟩
    · rw [saveArrayItem_eq (h.item rfl)]
      exact saveRecord_take (m := 2) (n := 2) (by decide) (by decide) (by decide) (by decide)
  have hsave : kvsArraySave .good T = some (IntCodec.int32 2 ++
      [([97, 0], [97]), ([98, 0], [98, 0])].flatMap recordBytes, 0) := by
    rw [kvsArraySave_eq, h.total, ← hfirst]
    exact saveFile_good fun out => saveAll_good hitems
  have hcut : cutRecords [(stringA, repeated n), (stringB, stringB)]
      (IntCodec.int32 2 ++ recordBytes ([97, 0], [97])) = [] := by
    have hlong : ¬(recordBytes (storedRecord 1 (stringA, repeated n))).length ≤ 11 := by
      have hbytes : (repeated n).strlen = n := by simp [repeated, CString.strlen]
      rw [recordBytes, List.length_append, length_objectBytes, length_objectBytes, storedRecord,
        CString.length_object _ (Nat.le_refl 1), CString.length_object _ (Nat.le_refl 1), hbytes, hn]
      decide
    exact if_neg hlong
  obtain ⟨T', code, hload, -⟩ := hdetects _ [] T kvsArrayCreate outs [] [(stringA, repeated n), (stringB, stringB)] _
    (IntCodec.int32 2 ++ recordBytes ([97, 0], [97])) (fun _ => .calm 0) hrun hsave ⟨_, h, rfl⟩ rfl
    ⟨recordBytes ([98, 0], [98, 0]), by decide +kernel⟩ (by decide +kernel) (fun _ => Env.calm_allocates 0)
    (hcut ▸ array_hasRoom hcreated (by decide)) ⟨array_countFits h, by simp [hcut]⟩
  have hfault : (EngineKind.array.backend.load (fun _ => .calm 0) EngineKind.array.created
      (IntCodec.int32 2 ++ recordBytes ([97, 0], [97]))).isNone = true := by decide +kernel
  rw [Option.isNone_iff_eq_none] at hfault
  cases hfault.symm.trans hload

/-- A tree with so many keys that the count in its file is a negative `int`: of a part of the file nothing is missed. -/
theorem truncation_manyKeys {n : Nat} (hn : n = 2147483648) : ¬EngineKind.rbtree.DetectsTruncation fun t s rs =>
    EngineKind.rbtree.EntriesFit t ∧ ∀ r ∈ rs, ¬rbtreeLimits.Stranded s r.key := by
  intro hdetects
  obtain ⟨calls, T, outs, m, -, hrun, ⟨tree, hi, hl⟩, hsize, hstrings, -⟩ := manyKeys_load hn
  obtain ⟨bs, hbs, -⟩ := (hl.perm ((RBTree.preorder_perm tree).symm.map Cell.entry)).exists_of_mapVal
  have hstored : ∀ e ∈ tree.toList, ∃ v, e.value = .str v := by
    intro e he
    have hmem : e.entry ∈ bs.map fun b => (b.1, b.2.stored) :=
      hbs ▸ List.mem_map_of_mem ((RBTree.preorder_perm tree).mem_iff.mpr he)
    obtain ⟨b, -, heq⟩ := List.mem_map.mp hmem
    exact ⟨b.2.value, (congrArg (fun p => p.2.1) heq).symm⟩
  have hfits : ∀ e ∈ tree.toList, EntryFits (e.key, e.value) := by
    intro e he
    obtain ⟨v, hv⟩ := hstored e he
    obtain ⟨hk, hv'⟩ := hstrings e.key v (hv ▸ hi.get_mem he)
    refine ⟨hk, fun w hw => ?_⟩
    rw [hv, CharPtr.str.injEq] at hw
    exact hw ▸ hv'
  have hentries : EngineKind.rbtree.Entries T (tree.preorder.map fun e => (e.key, e.value)) := ⟨tree, hi.rep, rfl⟩
  have hall : EngineKind.rbtree.EntriesFit T := by
    refine EngineKind.entriesFit_of (by decide) hentries fun e he => ?_
    obtain ⟨a, ha, rfl⟩ := List.mem_map.mp he
    exact hfits a ((RBTree.preorder_perm tree).mem_iff.mp ha)
  have hsave := hi.rep.save fun e he => by
    obtain ⟨a, ha, rfl⟩ := List.mem_map.mp he
    have ha := (RBTree.preorder_perm tree).mem_iff.mp ha
    obtain ⟨v, hv⟩ := hstored a ha
    exact ⟨v, hv, storable_of_fits (e := (a.key, v)) (hv ▸ hfits a ha)⟩
  have hes : tree.preorder.map (fun e => (e.key, e.value)) =
      (bs.map fun b => (b.1, b.2.value)).map fun e => (e.1, CharPtr.str e.2) := by
    have hmap := congrArg (List.map fun p : CString × CharPtr × UInt64 => (p.1, p.2.1)) hbs
    rw [List.map_map, List.map_map] at hmap
    rw [List.map_map]
    exact hmap
  have hlen : (tree.preorder.map Cell.entry).length = n := by
    rw [List.length_map, (RBTree.preorder_perm tree).length_eq, ← List.length_map Cell.entry, ← hl.size, Map.size_mapVal,
      hsize]
  rw [fileBytes, List.length_map, hlen] at hsave
  have hne : IntCodec.int32 n ≠ IntCodec.int32 n ++ ((tree.preorder.map Cell.entry).map entryRecord).flatMap recordBytes := by
    have hpos : 0 < ((tree.preorder.map Cell.entry).map entryRecord).length := by
      rw [List.length_map, hlen]
      omega
    exact fun heq => flatMap_recordBytes_ne_nil (List.ne_nil_of_length_pos hpos) (List.self_eq_append_right.mp heq)
  obtain ⟨T', code, hload, hneg, -⟩ := hdetects calls [] T kvsRbtreeCreate outs [] _ _ (IntCodec.int32 n)
    (fun _ => .calm 0) hrun hsave (hes ▸ hentries) rfl (List.prefix_append ..) hne (fun _ => Env.calm_allocates 0)
    (fun _ _ => trivial) ⟨hall, fun _ _ hf => hf⟩
  have hzero : ((n : Int).bmod UInt32.size).toNat = 0 := by
    rw [hn]
    decide
  have hdone : load rbtreeEngine.setBuffers (fun _ => .calm 0) kvsRbtreeCreate (int32 n ++ []) = _ := load_int32 _
  rw [List.append_nil, hzero] at hdone
  have hback : EngineKind.rbtree.backend.load = load rbtreeEngine.setBuffers := rfl
  rw [hback, hdone] at hload
  cases hload
  omega

/-- Without its conditions a load takes a cut file for a whole one, or loses a record of it, or reads on behind one. -/
theorem truncation_conditions_needed :
    (¬EngineKind.array.DetectsTruncation fun _ _ _ => True) ∧
    (¬EngineKind.array.DetectsTruncation fun t _ _ => EngineKind.array.EntriesFit t ∧ arrayEngine.CountFits t) ∧
    (¬EngineKind.array.DetectsTruncation fun t s rs =>
      arrayEngine.CountFits t ∧ ∀ r ∈ rs, ¬ArrayStranded s r.key) ∧
    ¬EngineKind.rbtree.DetectsTruncation fun t s rs =>
      EngineKind.rbtree.EntriesFit t ∧ ∀ r ∈ rs, ¬rbtreeLimits.Stranded s r.key := by
  refine ⟨fun h => truncation_stranded ?_, truncation_stranded, truncation_longValue rfl, truncation_manyKeys rfl⟩
  intro calls calls' t s outs outs' es file p env hrun hsave hes hrun' hp hne henv hroom _
  exact h calls calls' t s outs outs' es file p env hrun hsave hes hrun' hp hne henv hroom trivial

end KvStore
