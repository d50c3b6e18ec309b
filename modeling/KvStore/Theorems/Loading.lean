import KvStore.Theorems.Backend
import KvStore.Theorems.Save

/-! Loading an arbitrary file. A load is told by the records that it reads, each of which it passes on to `set` before
    it reads the next one, and by the code that it ends with; both depend on the file and on the allocations alone. -/

namespace KvStore
open IntCodec

/-- A record as it is read: the bytes of its key and of its value. -/
abbrev Record := List UInt8 × List UInt8

/-- Both objects of the record can be written and read back. -/
def Record.Whole (r : Record) : Prop := Writable r.1 ∧ Writable r.2

/-- The records that the loop reads with `n` to go, and the code that it ends with. -/
def readRecords : (Nat → Env) → Nat → List UInt8 → List Record × Int
  | _, 0, _ => ([], 0)
  | env, n + 1, file =>
    match loadObject ((env 0).alloc 0) (-3) file with
    | .error code => ([], code)
    | .ok (key, file) =>
      match loadObject ((env 0).alloc 1) (-6) file with
      | .error code => ([], code)
      | .ok (value, file) =>
        let (records, code) := readRecords (fun i => env (i + 1)) n file
        ((key, value) :: records, code)

/-- The records that a load reads, and the code that it returns. -/
def readFile (env : Nat → Env) (file : List UInt8) : List Record × Int :=
  match fread file 4 with
  | none => ([], -2)
  | some (b, file) => readRecords env (ofInt32 b).toNat file

/-- One call of `set` for each record. -/
def setAll {σ : Type} (set : Env → σ → List UInt8 → List UInt8 → Option (σ × Int)) :
    (Nat → Env) → σ → List Record → Option σ
  | _, s, [] => some s
  | env, s, r :: records => do
    let (s, _) ← set ((env 0).after 2) s r.1 r.2
    setAll set (fun i => env (i + 1)) s records

section Loops
variable {σ : Type} {set : Env → σ → List UInt8 → List UInt8 → Option (σ × Int)}

theorem loadLoop_eq : ∀ {n : Nat} {env : Nat → Env} {s : σ} {file : List UInt8}, loadLoop set env n s file =
    (setAll set env s (readRecords env n file).1).map fun s' => (s', (readRecords env n file).2)
  | 0, _, _, _ => rfl
  | n + 1, env, s, file => by
    rw [loadLoop, readRecords]
    cases loadObject ((env 0).alloc 0) (-3) file with
    | error code => rfl
    | ok r =>
      obtain ⟨key, file₁⟩ := r
      simp only
      cases loadObject ((env 0).alloc 1) (-6) file₁ with
      | error code => rfl
      | ok r =>
        obtain ⟨value, file₂⟩ := r
        simp only [setAll, Option.bind_eq_bind, Option.map_bind]
        refine Option.bind_congr fun p _ => ?_
        exact loadLoop_eq

/-- A load is the calls of `set` for the records that it reads. -/
theorem load_eq {env : Nat → Env} {s : σ} {file : List UInt8} : load set env s file =
    (setAll set env s (readFile env file).1).map fun s' => (s', (readFile env file).2) := by
  rw [load, readFile]
  cases fread file 4 with
  | none => rfl
  | some r => exact loadLoop_eq

end Loops

/-! ### What is read -/

section Layout
variable {file rest b : List UInt8} {r : Record} {rs : List Record} {env : Nat → Env} {n : Nat} {code : Int}

theorem fread_eq {size : Nat} (h : fread file size = some (b, rest)) : 0 < b.length ∧ b.length = size ∧
    file = b ++ rest := by
  rw [fread] at h
  split at h
  · cases h
  · next hsize =>
    cases h
    have hlen : (file.take size).length = size := List.length_take_of_le (by omega)
    exact ⟨by omega, hlen, (List.take_append_drop size file).symm⟩

theorem fread_int32_eq (h : fread file 4 = some (b, rest)) : file = int32 (ofInt32 b) ++ rest := by
  obtain ⟨-, hlen, rfl⟩ := fread_eq h
  rw [int32_ofInt32 hlen]

/-- An object that is read has its length in front of it. -/
theorem loadObject_ok {alloc : Bool} {err : Int} (h : loadObject alloc err file = .ok (b, rest)) :
    alloc = true ∧ Writable b ∧ file = objectBytes b ++ rest := by
  rw [loadObject] at h
  cases hread : fread file 4 with
  | none =>
    rw [hread] at h
    cases h
  | some p =>
    obtain ⟨l, file₁⟩ := p
    simp only [hread] at h
    split at h
    · cases h
    · next hlen =>
      split at h
      · cases h
      · next p hobject =>
        cases h
        obtain ⟨hpos, hsize, rfl⟩ := fread_eq hobject
        rw [not_or, Bool.not_eq_false] at hlen
        have hcast : (b.length : Int) = ofInt32 l := by omega
        have hrange := isInt32_ofInt32 l
        refine ⟨hlen.2, ⟨hpos, ?_⟩, ?_⟩
        · rw [← hcast] at hrange
          exact_mod_cast hrange.2
        · rw [objectBytes, hcast, List.append_assoc]
          exact fread_int32_eq hread

theorem loadObject_error {alloc : Bool} {err : Int} (h : loadObject alloc err file = .error code) : code ≤ err := by
  rw [loadObject] at h
  split at h
  · cases h
    exact le_rfl
  · simp only at h
    split at h
    · cases h
      omega
    · split at h
      · cases h
        omega
      · cases h

/-- The records that are read lie one behind the other, and the loop ends without an error exactly behind the last. -/
theorem readRecords_layout : ∀ (n : Nat) (env : Nat → Env) (file : List UInt8),
    (∃ rest, file = (readRecords env n file).1.flatMap recordBytes ++ rest) ∧
    (∀ r ∈ (readRecords env n file).1, r.Whole) ∧
    ((readRecords env n file).1.length = n ∧ (readRecords env n file).2 = 0 ∨
      (readRecords env n file).1.length < n ∧ (readRecords env n file).2 < 0)
  | 0, env, file => ⟨⟨file, rfl⟩, by simp [readRecords], Or.inl ⟨rfl, rfl⟩⟩
  | n + 1, env, file => by
    rw [readRecords]
    cases hkey : loadObject ((env 0).alloc 0) (-3) file with
    | error code =>
      exact ⟨⟨file, rfl⟩, by simp, Or.inr ⟨by simp, (loadObject_error hkey).trans_lt (by decide)⟩⟩
    | ok p =>
      obtain ⟨key, file₁⟩ := p
      simp only
      cases hvalue : loadObject ((env 0).alloc 1) (-6) file₁ with
      | error code =>
        exact ⟨⟨file, rfl⟩, by simp, Or.inr ⟨by simp, (loadObject_error hvalue).trans_lt (by decide)⟩⟩
      | ok p =>
        obtain ⟨value, file₂⟩ := p
        obtain ⟨-, hkw, rfl⟩ := loadObject_ok hkey
        obtain ⟨-, hvw, rfl⟩ := loadObject_ok hvalue
        obtain ⟨⟨rest, hrest⟩, hwhole, hcount⟩ := readRecords_layout n (fun i => env (i + 1)) file₂
        refine ⟨⟨rest, ?_⟩, List.forall_mem_cons.mpr ⟨⟨hkw, hvw⟩, hwhole⟩, ?_⟩
        · simp only [List.flatMap_cons, recordBytes, List.append_assoc, ← hrest]
        · simp only [List.length_cons]
          omega

theorem readRecords_succ {file₁ file₂ key value : List UInt8}
    (hkey : loadObject ((env 0).alloc 0) (-3) file = .ok (key, file₁))
    (hvalue : loadObject ((env 0).alloc 1) (-6) file₁ = .ok (value, file₂)) :
    readRecords env (n + 1) file = ((key, value) :: (readRecords (fun i => env (i + 1)) n file₂).1,
      (readRecords (fun i => env (i + 1)) n file₂).2) := by
  rw [readRecords, hkey]
  simp only
  rw [hvalue]

theorem readRecords_cons (henv : (env 0).Allocates) (h : r.Whole) : readRecords env (n + 1) (recordBytes r ++ rest) =
    (r :: (readRecords (fun i => env (i + 1)) n rest).1, (readRecords (fun i => env (i + 1)) n rest).2) := by
  have hkey : loadObject ((env 0).alloc 0) (-3) (objectBytes r.1 ++ (objectBytes r.2 ++ rest)) =
      .ok (r.1, objectBytes r.2 ++ rest) := by
    rw [henv 0, loadObject_objectBytes h.1]
  have hvalue : loadObject ((env 0).alloc 1) (-6) (objectBytes r.2 ++ rest) = .ok (r.2, rest) := by
    rw [henv 1, loadObject_objectBytes h.2]
  rw [recordBytes, List.append_assoc]
  exact readRecords_succ hkey hvalue

/-- With memory at hand, the records that lie in the file are read as far as the count goes. -/
theorem readRecords_append : ∀ {rs : List Record} {n : Nat} {env : Nat → Env}, (∀ i, (env i).Allocates) →
    (∀ r ∈ rs, r.Whole) → rs.length ≤ n → readRecords env n (rs.flatMap recordBytes ++ rest) =
      (rs ++ (readRecords (fun i => env (i + rs.length)) (n - rs.length) rest).1,
        (readRecords (fun i => env (i + rs.length)) (n - rs.length) rest).2)
  | [], _, _, _, _, _ => rfl
  | r :: rs, n, env, henv, hrs, hlen => by
    rw [List.forall_mem_cons] at hrs
    obtain ⟨n, rfl⟩ : ∃ m, n = m + 1 := ⟨n - 1, by rw [List.length_cons] at hlen; omega⟩
    have hrest : ∀ i, (env (i + 1)).Allocates := fun i => henv (i + 1)
    have ih := readRecords_append hrest hrs.2 (Nat.le_of_succ_le_succ hlen)
    rw [List.flatMap_cons, List.append_assoc, readRecords_cons (henv 0) hrs.1, ih, List.length_cons,
      Nat.add_sub_add_right]
    rfl

theorem readFile_int32 {n : Int} (h : IsInt32 n) : readFile env (int32 n ++ rest) = readRecords env n.toNat rest := by
  have hread : fread (int32 n ++ rest) 4 = some (int32 n, rest) := fread_int32 n
  rw [readFile, hread]
  simp only [ofInt32_int32, bmod_of_isInt32 h]

/-- A load that returns without an error has read as many records as its file declares, which is none of them when the
    count is negative. -/
theorem readFile_layout (env : Nat → Env) (file : List UInt8) :
    (readFile env file).1 = [] ∧ (readFile env file).2 < 0 ∨
    ∃ n rest, IsInt32 n ∧ file = int32 n ++ ((readFile env file).1.flatMap recordBytes ++ rest) ∧
      (∀ r ∈ (readFile env file).1, r.Whole) ∧
      ((readFile env file).1.length = n.toNat ∧ (readFile env file).2 = 0 ∨
        (readFile env file).1.length < n.toNat ∧ (readFile env file).2 < 0) := by
  cases hread : fread file 4 with
  | none =>
    have hnone : readFile env file = ([], -2) := by rw [readFile, hread]
    rw [hnone]
    exact Or.inl ⟨rfl, by decide⟩
  | some p =>
    obtain ⟨b, rest⟩ := p
    have hfile := fread_int32_eq hread
    have hrecords : readFile env file = readRecords env (ofInt32 b).toNat rest := by rw [readFile, hread]
    obtain ⟨⟨rest', hrest⟩, hwhole, hcount⟩ := readRecords_layout (ofInt32 b).toNat env rest
    rw [hrest] at hfile
    rw [hrecords]
    exact Or.inr ⟨ofInt32 b, rest', isInt32_ofInt32 b, hfile, hwhole, hcount⟩

end Layout

/-! ### Records without a terminator -/

/-- `set` on the buffers of a record. -/
def EngineKind.setBuffers : (kind : EngineKind) → Env → kind.Store → List UInt8 → List UInt8 → Option (kind.Store × Int)
  | .array => arrayEngine.setBuffers
  | .rbtree => rbtreeEngine.setBuffers
  | .hash => hashEngine.setBuffers
  | .skiptable => kvsSkiptableSet

theorem EngineKind.load_eq (kind : EngineKind) {env : Nat → Env} {s : kind.Store} {file : List UInt8} :
    kind.backend.load env s file =
      (setAll kind.setBuffers env s (readFile env file).1).map fun s' => (s', (readFile env file).2) := by
  cases kind with
  | array => exact KvStore.load_eq
  | rbtree => exact KvStore.load_eq
  | hash => exact KvStore.load_eq
  | skiptable => exact KvStore.load_eq

/-- Both buffers of the record end in a terminator, at the latest. -/
def Record.Terminated (r : Record) : Prop := 0 ∈ r.1 ∧ 0 ∈ r.2

/-- How many records the file declares. -/
def declaredCount (file : List UInt8) : Nat := (ofInt32 (file.take 4)).toNat

/-- Whatever the store and its surroundings are, the load passes on terminated buffers only, and it returns a negative
    code unless it has passed on every declared record. -/
def EngineKind.LoadsSafely (kind : EngineKind) (file : List UInt8) : Prop :=
  ∀ (env : Nat → Env) (s : kind.Store), ∃ records code,
    kind.backend.load env s file = (setAll kind.setBuffers env s records).map (fun s' => (s', code)) ∧
    (records, code) = readFile env file ∧ (∀ r ∈ records, r.Terminated) ∧
    (code < 0 ∨ code = 0 ∧ records.length = declaredCount file)

/-- Each record of the file that lies behind whole records, within the declared count, is terminated. -/
def TerminatedRecords (file : List UInt8) : Prop :=
  ∀ (n : Int) (rs : List Record) (r : Record) (rest : List UInt8), IsInt32 n →
    file = int32 n ++ ((rs ++ [r]).flatMap recordBytes ++ rest) → (∀ r' ∈ rs ++ [r], r'.Whole) → rs.length < n.toNat →
    r.Terminated

theorem declaredCount_int32 {n : Int} {rest : List UInt8} (h : IsInt32 n) : declaredCount (int32 n ++ rest) = n.toNat := by
  have htake : (int32 n ++ rest).take 4 = int32 n := by
    rw [List.take_append_of_le_length (by simp), List.take_of_length_le (by simp)]
  rw [declaredCount, htake, ofInt32_int32, bmod_of_isInt32 h]

theorem EngineKind.LoadsSafely.terminated {kind : EngineKind} {file : List UInt8} (h : kind.LoadsSafely file) :
    TerminatedRecords file := by
  rintro n rs r rest hn rfl hwhole hlen
  have henv : ∀ _ : Nat, (Env.calm 0).Allocates := fun _ => Env.calm_allocates 0
  obtain ⟨records, code, -, hread, hterm, -⟩ := h (fun _ => .calm 0) kind.created
  rw [readFile_int32 hn, readRecords_append henv hwhole (by simpa using hlen)] at hread
  obtain ⟨rfl, -⟩ := Prod.mk.inj hread
  exact hterm r (by simp)

/-- A load is safe exactly on the files whose records are terminated: it does not look at their last bytes. -/
theorem loadsSafely_iff (kind : EngineKind) (file : List UInt8) : kind.LoadsSafely file ↔ TerminatedRecords file := by
  refine ⟨fun h => h.terminated, fun h env s => ⟨_, _, kind.load_eq, rfl, ?_⟩⟩
  rcases readFile_layout env file with ⟨hnil, hcode⟩ | ⟨n, rest, hn, hfile, hwhole, hcount⟩
  · rw [hnil]
    exact ⟨by simp, Or.inl hcode⟩
  · refine ⟨fun r hr => ?_, ?_⟩
    · obtain ⟨rs, rs', hsplit⟩ := List.append_of_mem hr
      have hfront : (readFile env file).1 = (rs ++ [r]) ++ rs' := by simp [hsplit]
      refine h n rs r (rs'.flatMap recordBytes ++ rest) hn ?_ (fun r' hr' => hwhole r' ?_) ?_
      · rw [hfront, List.flatMap_append, List.append_assoc] at hfile
        exact hfile
      · rw [hfront]
        exact List.mem_append_left _ hr'
      · have : (readFile env file).1.length = rs.length + (rs'.length + 1) := by
          rw [hsplit, List.length_append]
          rfl
        omega
    · have hdeclared : declaredCount file = n.toNat := by
        rw [hfile]
        exact declaredCount_int32 hn
      omega

/-- The file of one record whose key and value are a byte each, without terminators. -/
def unterminatedFile : List UInt8 := int32 1 ++ recordBytes ([97], [98])

/-- No load is safe on this file, and loading it into a new array, `set` reads on behind the key. -/
theorem unterminatedFile_unsafe :
    ¬EngineKind.array.LoadsSafely unterminatedFile ∧ ¬EngineKind.rbtree.LoadsSafely unterminatedFile ∧
    ¬EngineKind.hash.LoadsSafely unterminatedFile ∧ ¬EngineKind.skiptable.LoadsSafely unterminatedFile ∧
    kvsArrayLoad (fun _ => .calm 0) kvsArrayCreate unterminatedFile = none := by
  have hfile : ¬TerminatedRecords unterminatedFile := by
    intro h
    have hterm := h 1 [] ([97], [98]) [] ⟨by decide, by decide⟩ rfl (by simp [Record.Whole, Writable]) (by decide)
    simp [Record.Terminated] at hterm
  have hload : (kvsArrayLoad (fun _ => .calm 0) kvsArrayCreate unterminatedFile).isNone = true := by decide +kernel
  exact ⟨fun h => hfile h.terminated, fun h => hfile h.terminated, fun h => hfile h.terminated,
    fun h => hfile h.terminated, Option.isNone_iff_eq_none.mp hload⟩

end KvStore
