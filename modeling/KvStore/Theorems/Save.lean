import KvStore.MapSpec
import KvStore.Save
import Mathlib.Data.List.Forall2

/-! # Files of records

What the save functions write when no `fwrite` fails, and what a load makes of such a file. -/

namespace KvStore
open IntCodec FiniteMap

/-- An object in a file: its length and then its bytes. -/
def objectBytes (b : List UInt8) : List UInt8 := int32 b.length ++ b

def recordBytes (r : List UInt8 × List UInt8) : List UInt8 := objectBytes r.1 ++ objectBytes r.2

def fileBytes (records : List (List UInt8 × List UInt8)) : List UInt8 :=
  int32 records.length ++ records.flatMap recordBytes

/-- The object can be written and read back. -/
def Writable (b : List UInt8) : Prop := 0 < b.length ∧ b.length < 2147483648

/-! ### Writing -/

/-- The file after `n` more writes that wrote `b`. -/
def OutFile.append (out : OutFile) (b : List UInt8) (n : Nat) : OutFile := ⟨out.bytes ++ b, out.writes + n⟩

@[simp] theorem OutFile.append_append (out : OutFile) (b c : List UInt8) (m n : Nat) :
    (out.append b m).append c n = out.append (b ++ c) (m + n) := by
  simp [OutFile.append, Nat.add_assoc]

@[simp] theorem OutFile.append_bytes (out : OutFile) (b : List UInt8) (n : Nat) :
    (out.append b n).bytes = out.bytes ++ b := rfl

section Write
variable {out : OutFile} {obj : List UInt8} {k v : CString} {nul : Nat} {err : Int}

theorem fwrite_good {n : Nat} (hpos : 0 < n) (hle : n ≤ obj.length) :
    fwrite .good out obj n = some (out.append (obj.take n) 1, 1) := by
  have hzero : (n : Int) ≠ 0 := by omega
  have hfits : ¬((n : Int) < 0 ∨ (obj.length : Int) < n) := by omega
  rw [fwrite, if_neg hzero, if_neg hfits]
  rfl

theorem fwrite_int32 (n : Int) : fwrite .good out (int32 n) 4 = some (out.append (int32 n) 1, 1) := by
  have h : fwrite .good out (int32 n) (4 : Nat) = some (out.append ((int32 n).take 4) 1, 1) :=
    fwrite_good (by decide) (by simp)
  rw [List.take_of_length_le (by simp)] at h
  exact h

/-- The bytes of a string that a record of the format `nul` contains. -/
def CString.object (nul : Nat) (s : CString) : List UInt8 := s.buf.take (s.strlen + nul)

theorem CString.length_object (s : CString) (h : nul ≤ 1) : (s.object nul).length = s.strlen + nul := by
  simp only [object, buf, strlen, List.length_take, List.length_append, List.length_singleton]
  omega

theorem CString.object_one (s : CString) : s.object 1 = s.buf :=
  List.take_of_length_le (by simp [buf, strlen])

theorem CString.object_zero (s : CString) : s.object 0 = s.bytes := by
  simp [object, buf, strlen]

theorem Writable.bmod_length {b : List UInt8} (h : Writable b) : (b.length : Int).bmod UInt32.size = b.length :=
  bmod_of_isInt32 ⟨by omega, by exact_mod_cast h.2⟩

/-- A record, of which each length is the `int` that is left of `strlen` and the terminator. -/
theorem saveRecord_take {m n : Nat} (hk : ((k.strlen + nul : Nat) : Int).bmod UInt32.size = m)
    (hv : ((v.strlen + nul : Nat) : Int).bmod UInt32.size = n) (hm : 0 < m ∧ m ≤ k.buf.length)
    (hn : 0 < n ∧ n ≤ v.buf.length) :
    saveRecord .good err nul out (.str k) (.str v) =
      some (out.append (recordBytes (k.buf.take m, v.buf.take n)) 4, 0) := by
  have hklen : (k.buf.take m).length = m := List.length_take_of_le hm.2
  have hvlen : (v.buf.take n).length = n := List.length_take_of_le hn.2
  unfold saveRecord
  simp -implicitDefEqProofs only [CharPtr.deref, Option.bind_eq_bind, Option.bind_some, hk, hv, fwrite_int32,
    fwrite_good hm.1 hm.2, fwrite_good hn.1 hn.2, OutFile.append_append, List.append_assoc, ne_eq, not_true_eq_false,
    if_false, recordBytes, objectBytes, hklen, hvlen]

theorem CString.object_length_le (hnul : nul ≤ 1) (s : CString) : s.strlen + nul ≤ s.buf.length := by
  rw [buf, List.length_append]
  exact Nat.add_le_add_left hnul _

/-- A record whose strings fit. -/
theorem saveRecord_good (hnul : nul ≤ 1) (hk : Writable (k.object nul)) (hv : Writable (v.object nul)) :
    saveRecord .good err nul out (.str k) (.str v) =
      some (out.append (recordBytes (k.object nul, v.object nul)) 4, 0) := by
  have hklen := hk.bmod_length
  have hvlen := hv.bmod_length
  have hkpos := hk.1
  have hvpos := hv.1
  rw [CString.length_object _ hnul] at hklen hvlen hkpos hvpos
  exact saveRecord_take hklen hvlen ⟨hkpos, k.object_length_le hnul⟩ ⟨hvpos, v.object_length_le hnul⟩

/-- A loop without errors writes one thing after the other. -/
theorem saveAll_good {α β : Type} {save : OutFile → α → Option (OutFile × Int)} {bytes : β → List UInt8} {n : β → Nat}
    {as : List α} {bs : List β}
    (h : List.Forall₂ (fun a b => ∀ out, save out a = some (out.append (bytes b) (n b), 0)) as bs) :
    saveAll save out as = some (out.append (bs.flatMap bytes) (bs.map n).sum, 0) := by
  induction h generalizing out with
  | nil => simp [saveAll, OutFile.append]
  | cons ha _ ih => simp [saveAll, ha, ih]

/-- A file whose records are written without an error. -/
theorem saveFile_good {totalCount : Int} {records : OutFile → Option (OutFile × Int)} {b : List UInt8} {n : Nat}
    (h : ∀ out, records out = some (out.append b n, 0)) :
    saveFile .good totalCount records = some (int32 totalCount ++ b, 0) := by
  simp [saveFile, fwrite_int32, h, OutFile.append]

end Write

/-! ### Reading -/

section Read
variable {b rest : List UInt8} {err : Int}

theorem fread_append (h : b ≠ []) : fread (b ++ rest) b.length = some (b, rest) := by
  have hfits : ¬(b.length = 0 ∨ (b ++ rest).length < b.length) := by simp [h]
  rw [fread, if_neg hfits, List.take_left, List.drop_left]

theorem fread_int32 (n : Int) : fread (int32 n ++ rest) 4 = some (int32 n, rest) := by
  have h : fread (int32 n ++ rest) (int32 n).length = some (int32 n, rest) :=
    fread_append (List.ne_nil_of_length_pos (by simp))
  rwa [length_int32] at h

theorem loadObject_objectBytes (h : Writable b) : loadObject true err (objectBytes b ++ rest) = .ok (b, rest) := by
  have hne : b ≠ [] := List.ne_nil_of_length_pos h.1
  have hlen : ofInt32 (int32 b.length) = b.length := (ofInt32_int32 _).trans h.bmod_length
  have hnonneg : ¬(b.length : Int) < 0 := by omega
  rw [objectBytes, List.append_assoc]
  simp [loadObject, fread_int32, hlen, hnonneg, fread_append hne]

/-- An object of no bytes cannot be read. -/
theorem loadObject_nil : loadObject true err (int32 0 ++ rest) = .error (err - 2) := by
  have hlen : ofInt32 (int32 0) = 0 := ofInt32_int32 0
  have hread : fread (int32 0 ++ rest) 4 = some (int32 0, rest) := fread_int32 0
  simp only [loadObject, hread, hlen]
  rfl

variable {σ : Type} {set : Env → σ → List UInt8 → List UInt8 → Option (σ × Int)} {env : Nat → Env}

theorem loadLoop_succ {n : Nat} {s : σ} {file file' key value : List UInt8}
    (hk : loadObject ((env 0).alloc 0) (-3) file = .ok (key, file'))
    (hv : loadObject ((env 0).alloc 1) (-6) file' = .ok (value, rest)) :
    loadLoop set env (n + 1) s file =
      (set ((env 0).after 2) s key value).bind fun p => loadLoop set (fun i => env (i + 1)) n p.1 rest := by
  rw [loadLoop, hk]
  simp only
  rw [hv]
  rfl

theorem loadLoop_cons {n : Nat} {s : σ} {r : List UInt8 × List UInt8} (henv : (env 0).Allocates)
    (hk : Writable r.1) (hv : Writable r.2) :
    loadLoop set env (n + 1) s (recordBytes r ++ rest) =
      (set ((env 0).after 2) s r.1 r.2).bind fun p => loadLoop set (fun i => env (i + 1)) n p.1 rest := by
  have hkey : loadObject ((env 0).alloc 0) (-3) (objectBytes r.1 ++ (objectBytes r.2 ++ rest)) =
      .ok (r.1, objectBytes r.2 ++ rest) := by
    rw [henv 0, loadObject_objectBytes hk]
  have hvalue : loadObject ((env 0).alloc 1) (-6) (objectBytes r.2 ++ rest) = .ok (r.2, rest) := by
    rw [henv 1, loadObject_objectBytes hv]
  rw [recordBytes, List.append_assoc]
  exact loadLoop_succ hkey hvalue

theorem load_int32 {s : σ} (n : Int) :
    load set env s (int32 n ++ rest) = loadLoop set env (n.bmod UInt32.size).toNat s rest := by
  have hread : fread (int32 n ++ rest) 4 = some (int32 n, rest) := fread_int32 n
  rw [load, hread, ← ofInt32_int32]

end Read

/-! ### Loading terminated strings -/

theorem readString_buf (s : CString) : readString s.buf = some s := by
  have hnul : (0 : UInt8) ∈ s.buf := by simp [CString.buf]
  rw [readString, if_pos hnul, CString.ofBytes_buf]

/-- The record of an entry in the format `nul`. -/
def storedRecord (nul : Nat) (e : CString × CString) : List UInt8 × List UInt8 := (e.1.object nul, e.2.object nul)

/-- The strings of the entry fit into a record. -/
def Storable (nul : Nat) (e : CString × CString) : Prop := Writable (e.1.object nul) ∧ Writable (e.2.object nul)

section Laws
variable {σ : Type} {E : Engine σ} {A : Answers} {Holds : σ → Map CString Entry → Prop} {key val : CString → Prop}

theorem not_mem_of_nodup_append {α : Type} {done es : List (CString × α)} {e : CString × α}
    (h : ((done ++ e :: es).map Prod.fst).Nodup) : e.1 ∉ done.map Prod.fst := by
  rw [List.map_append, List.map_cons, List.nodup_middle, List.nodup_cons] at h
  exact fun he => h.1 (List.mem_append_left _ he)

/-- A new key is added to what the store holds. -/
theorem Engine.Laws.set_new (L : E.Laws A Holds key val) {done : List (CString × CString)} {e : CString × CString}
    {env : Env} {s : σ} {m : Map CString Entry} (h : Holds s m) (hm : Lists done (m.mapVal Entry.value))
    (he : e.1 ∉ done.map Prod.fst) (hk : key e.1) (hv : val e.2) (hroom : A.full done.length = none)
    (henv : env.Allocates) : ∃ s', E.set env s e.1 e.2 = some (s', 0) ∧ Holds s' (m.insert e.1 ⟨e.2, env.now⟩) ∧
      Lists (done ++ [e]) ((m.insert e.1 ⟨e.2, env.now⟩).mapVal Entry.value) := by
  have hnone : m e.1 = none := by
    have := hm.apply_eq_none.mpr he
    simpa using this
  have hsize : m.size = done.length := by rw [← Map.size_mapVal Entry.value, hm.size]
  obtain ⟨s', hs', h'⟩ := L.set_absent (v := e.2) (t := env.now) h hk hv henv (hsize ▸ hroom) hnone
  refine ⟨s', (L.set_eq ..).trans hs', h', ?_⟩
  rw [Map.mapVal_insert]
  rw [← List.append_nil done] at hm
  exact hm.insert (by simp [hnone])

/-- Records of new keys are added to what the store holds, each with a reading of the clock. -/
theorem Engine.Laws.loadLoop (L : E.Laws A Holds key val) {done es : List (CString × CString)} {env : Nat → Env} {s : σ}
    {m : Map CString Entry} (h : Holds s m) (hm : Lists done (m.mapVal Entry.value))
    (hnd : ((done ++ es).map Prod.fst).Nodup) (hes : ∀ e ∈ es, key e.1 ∧ val e.2 ∧ Storable 1 e)
    (hroom : ∀ n < (done ++ es).length, A.full n = none) (henv : ∀ n, (env n).Allocates) :
    ∃ s' m', KvStore.loadLoop E.setBuffers env es.length s (es.flatMap fun e => recordBytes (storedRecord 1 e)) =
      some (s', 0) ∧ Holds s' m' ∧ Lists (done ++ es) (m'.mapVal Entry.value) ∧
        ∀ k e, m' k = some e → m k = some e ∨ ∃ n, e.timestamp = (env n).now := by
  induction es generalizing done env s m with
  | nil => exact ⟨s, m, rfl, h, by simpa using hm, fun _ _ => Or.inl⟩
  | cons e es ih =>
    obtain ⟨hk, hv, hkw, hvw⟩ := hes e List.mem_cons_self
    obtain ⟨s₁, hs₁, h₁, hm₁⟩ := L.set_new h hm (not_mem_of_nodup_append hnd) hk hv
      (hroom _ (by simp)) ((henv 0).after 2)
    have hset : E.setBuffers ((env 0).after 2) s (storedRecord 1 e).1 (storedRecord 1 e).2 = some (s₁, 0) := by
      simp only [Engine.setBuffers, storedRecord, CString.object_one, readString_buf, Option.bind_eq_bind,
        Option.bind_some]
      exact hs₁
    have hsplit : done ++ e :: es = (done ++ [e]) ++ es := by simp
    rw [hsplit] at hnd hroom ⊢
    obtain ⟨s', m', hs', h', hm', htime⟩ := ih h₁ hm₁ hnd
      (fun e' he' => hes e' (List.mem_cons_of_mem e he')) hroom fun n => henv (n + 1)
    refine ⟨s', m', ?_, h', hm', fun k e' hk' => ?_⟩
    · rw [List.length_cons, List.flatMap_cons, loadLoop_cons (henv 0) hkw hvw, hset]
      exact hs'
    · rcases htime k e' hk' with hold | ⟨n, hn⟩
      · by_cases hke : k = e.1
        · subst hke
          rw [Map.insert_self] at hold
          obtain rfl := Option.some.inj hold
          exact Or.inr ⟨0, rfl⟩
        · rw [Map.insert_of_ne hke] at hold
          exact Or.inl hold
      · exact Or.inr ⟨n + 1, hn⟩

/-- A file of distinct keys loads into an empty store as the map that it lists. -/
theorem Engine.Laws.load (L : E.Laws A Holds key val) {es : List (CString × CString)} {env : Nat → Env} {s : σ}
    (h : Holds s Map.empty) (hnd : (es.map Prod.fst).Nodup) (hes : ∀ e ∈ es, key e.1 ∧ val e.2 ∧ Storable 1 e)
    (hlen : es.length < 2147483648) (hroom : ∀ n < es.length, A.full n = none) (henv : ∀ n, (env n).Allocates) :
    ∃ s' m', KvStore.load E.setBuffers env s (fileBytes (es.map (storedRecord 1))) = some (s', 0) ∧ Holds s' m' ∧
      Lists es (m'.mapVal Entry.value) ∧ ∀ k e, m' k = some e → ∃ n, e.timestamp = (env n).now := by
  obtain ⟨s', m', hs', h', hm', htime⟩ := L.loadLoop h Lists.nil hnd hes hroom henv
  refine ⟨s', m', ?_, h', hm', fun k e he => (htime k e he).resolve_left (by simp)⟩
  have hcount : ((es.length : Int).bmod UInt32.size).toNat = es.length := by
    rw [bmod_of_isInt32 ⟨by omega, by exact_mod_cast hlen⟩, Int.toNat_natCast]
  rw [fileBytes, load_int32, List.length_map, hcount, List.flatMap_map]
  exact hs'

end Laws

end KvStore
