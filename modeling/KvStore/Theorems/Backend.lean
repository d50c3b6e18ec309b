import KvStore.Dispatch
import KvStore.Theorems.RbtreeWalk
import KvStore.Theorems.Sync

/-! What the four engines of a server have in common: each is a finite map on the keys and values that it can take,
    obeys the laws of the calls and of the scans, and is bounded by the entries it has room for. -/

namespace KvStore
open FiniteMap

/-- What bounds the stores of an engine: the number of the entries and their strings. -/
structure Engine.Bounds {σ : Type} (A : Answers) (Holds : σ → Map CString Entry → Prop) (key val : CString → Prop)
    (Fits : Nat → Prop) : Prop where
  fits : ∀ {s m}, Holds s m → Fits m.size
  finite : ∀ {s m}, Holds s m → {k | m k ≠ none}.Finite
  stored : ∀ {s m k e}, Holds s m → m k = some e → key k ∧ val e.value
  takes : ∀ {n n'}, n < n' → Fits n' → A.full n = none
  refuses : ∀ {n c}, A.full n = some c → c ≠ 0

theorem finite_keys {es : List (CString × CharPtr × UInt64)} {m : Map CString Entry}
    (hl : Lists es (m.mapVal Entry.stored)) : {k | m k ≠ none}.Finite := by
  have hfin := hl.finite
  simpa using hfin

theorem entry_mem {es : List (CString × CharPtr × UInt64)} {m : Map CString Entry} {k : CString} {e : Entry}
    (hl : Lists es (m.mapVal Entry.stored)) (hm : m k = some e) : (k, e.stored) ∈ es :=
  (hl.mem k e.stored).mpr (by simp [hm])

section Values
variable {σ : Type} {E : Engine σ} {A : Answers} {Holds : σ → Map CString Entry → Prop} {key val : CString → Prop}
  {Fits : Nat → Prop} {s s' : σ} {m m' : Map CString Entry} {k : CString}

theorem Engine.Bounds.key_of_mem (B : Engine.Bounds A Holds key val Fits) (h : Holds s m) (hm : m k ≠ none) : key k := by
  obtain ⟨e, he⟩ := Option.ne_none_iff_exists'.mp hm
  exact (B.stored h he).1

theorem Engine.Laws.get_eq (L : E.Laws A Holds key val) (h : Holds s m) (hk : key k) :
    E.get s k = some (((m k).map Entry.value).elim .null .str) := by
  cases hm : m k with
  | none => exact L.get_absent h hk hm
  | some e => exact L.get_present h hk hm

/-- Two stores show the same for each key exactly when they hold the same values. -/
theorem Engine.Laws.gets_eq_iff (L : E.Laws A Holds key val) (B : Engine.Bounds A Holds key val Fits) (h : Holds s m)
    (h' : Holds s' m') : (∀ k, key k → E.get s k = E.get s' k) ↔ m.mapVal Entry.value = m'.mapVal Entry.value := by
  have hinj : ∀ u v : Option CString, u.elim CharPtr.null .str = v.elim .null .str ↔ u = v := by
    intro u v
    cases u <;> cases v <;> simp
  constructor
  · intro hget
    funext k
    by_cases hk : key k
    · have heq := hget k hk
      rwa [L.get_eq h hk, L.get_eq h' hk, Option.some.injEq, hinj] at heq
    · have hm : m k = none := not_not.mp (mt (B.key_of_mem h) hk)
      have hm' : m' k = none := not_not.mp (mt (B.key_of_mem h') hk)
      rw [Map.mapVal_apply, Map.mapVal_apply, hm, hm']
  · intro hvalue k hk
    have heq : (m k).map Entry.value = (m' k).map Entry.value := congrFun hvalue k
    rw [L.get_eq h hk, L.get_eq h' hk, heq]

end Values

/-- There is room for records when there is for each new key of theirs. -/
theorem Engine.Bounds.room_newKeys {σ : Type} {A : Answers} {Holds : σ → Map CString Entry → Prop}
    {key val : CString → Prop} {Fits : Nat → Prop} (B : Engine.Bounds A Holds key val Fits) {s : σ}
    {m : Map CString Entry} {data : List SyncData} (h : Holds s m) (hfits : Fits (m.size + (newKeys m data).length)) :
    Room A m data := by
  rintro pre item post rfl hnone
  exact B.takes (size_merge_lt (B.finite h) hnone) hfits

theorem arrayBounds : Engine.Bounds arrayAnswers ArrayHolds AnyString AnyString (· ≤ kvsArraySize) where
  fits h := by
    obtain ⟨es, hs, hl⟩ := h
    rw [← Map.size_mapVal Entry.stored, hl.size]
    exact hs.fits
  finite h := by
    obtain ⟨es, -, hl⟩ := h
    exact finite_keys hl
  stored _ _ := ⟨trivial, trivial⟩
  takes hlt hfits := if_neg (not_le.mpr (hlt.trans_le hfits))
  refuses {n c} hfull := by
    simp only [arrayAnswers] at hfull
    split at hfull
    · cases hfull
      decide
    · cases hfull

theorem rbtreeBounds : Engine.Bounds rbtreeAnswers RbtreeHolds AnyString AnyString fun _ => True where
  fits _ := trivial
  finite h := by
    obtain ⟨t, -, hl⟩ := h
    exact finite_keys hl
  stored _ _ := ⟨trivial, trivial⟩
  takes _ _ := rfl
  refuses hfull := by cases hfull

theorem hashBounds : Engine.Bounds hashAnswers HashHolds SlotInRange AnyString fun _ => True where
  fits _ := trivial
  finite h := finite_keys h.lists
  stored h hm := ⟨h.slotInRange _ (entry_mem h.lists hm), trivial⟩
  takes _ _ := rfl
  refuses hfull := by cases hfull

theorem skipBounds : Engine.Bounds skipAnswers SkipHolds Short Short fun _ => True where
  fits _ := trivial
  finite h := by
    obtain ⟨L, -, hl⟩ := h
    exact finite_keys hl
  stored h hm := by
    obtain ⟨L, hinv, hl⟩ := h
    obtain ⟨c, hc, heq⟩ := List.mem_map.mp (entry_mem hl hm)
    obtain ⟨rfl, hv⟩ := Prod.mk.inj heq
    obtain ⟨hv, -⟩ := Prod.mk.inj hv
    rw [← CharPtr.str.inj hv]
    exact hinv.short c hc
  takes _ _ := rfl
  refuses hfull := by cases hfull
/-- A deletion takes the key out of the map, and returns 0 when the key was there. The timestamps of other keys may
    change with it. -/
def Engine.Erases {σ : Type} (E : Engine σ) (Holds : σ → Map CString Entry → Prop) (key : CString → Prop) : Prop :=
  ∀ {s m k}, Holds s m → key k → ∃ s' n m', E.delete s k = some (s', n) ∧ Holds s' m' ∧ (m k ≠ none → n = 0) ∧
    m'.mapVal Entry.value = (m.mapVal Entry.value).erase k

theorem Engine.DeleteLaws.erases {σ α : Type} {E : Engine σ} {A : Answers} {V : View α}
    {Holds : σ → Map CString Entry → Prop} {key : CString → Prop} (D : E.DeleteLaws A V Holds key) :
    E.Erases Holds key := by
  intro s m k h hk
  have hvalue : V.value ∘ V.proj = Entry.value := funext V.value_proj
  cases hm : m k with
  | none =>
    refine ⟨s, _, m, D.absent h hk hm, h, fun hne => absurd rfl hne, ?_⟩
    rw [Map.erase_of_none (by simp [hm])]
  | some e =>
    obtain ⟨s', m', hs, h', heq⟩ := D.present h hk hm
    refine ⟨s', 0, m', hs, h', fun _ => rfl, ?_⟩
    have hmap := congrArg (Map.mapVal V.value) heq
    rw [Map.mapVal_erase, Map.mapVal_mapVal, Map.mapVal_mapVal, hvalue] at hmap
    exact hmap

theorem hashErases : hashEngine.Erases HashHolds SlotInRange := by
  intro H m k h hk
  cases hm : m k with
  | none =>
    refine ⟨H, _, m, h.delete_absent hk hm, h, fun hne => absurd rfl hne, ?_⟩
    rw [Map.erase_of_none (by simp [hm])]
  | some e =>
    obtain ⟨H', hs, h'⟩ := h.delete_present hk hm
    exact ⟨H', 0, _, hs, h', fun _ => rfl, Map.mapVal_erase _⟩

namespace EngineKind

abbrev engine (kind : EngineKind) : Engine kind.Store := kind.backend.toEngine

abbrev scan (kind : EngineKind) : Scan kind.Store := kind.backend.toScan

/-- The store holds the map `m`. -/
def Holds : (kind : EngineKind) → kind.Store → Map CString Entry → Prop
  | .array => ArrayHolds
  | .rbtree => RbtreeHolds
  | .hash => HashHolds
  | .skiptable => SkipHolds

/-- The keys that the engine tells apart. -/
def Key : EngineKind → CString → Prop
  | .array => AnyString
  | .rbtree => AnyString
  | .hash => SlotInRange
  | .skiptable => Short

/-- The values that the engine keeps whole. -/
def Val : EngineKind → CString → Prop
  | .array => AnyString
  | .rbtree => AnyString
  | .hash => AnyString
  | .skiptable => Short

/-- The strings that the engine can copy for a range or a dump. -/
def Copyable : EngineKind → CString → Prop
  | .array => AnyString
  | .rbtree => Long
  | .hash => Long
  | .skiptable => AnyString

instance : (kind : EngineKind) → DecidablePred kind.Copyable
  | .array => inferInstanceAs (DecidablePred AnyString)
  | .rbtree => inferInstanceAs (DecidablePred Long)
  | .hash => inferInstanceAs (DecidablePred Long)
  | .skiptable => inferInstanceAs (DecidablePred AnyString)

/-- The engine has room for `n` entries. -/
def Fits : EngineKind → Nat → Prop
  | .array => (· ≤ kvsArraySize)
  | .rbtree => fun _ => True
  | .hash => fun _ => True
  | .skiptable => fun _ => True

def answers : EngineKind → Answers
  | .array => arrayAnswers
  | .rbtree => rbtreeAnswers
  | .hash => hashAnswers
  | .skiptable => skipAnswers

variable (kind : EngineKind)

theorem laws : kind.engine.Laws kind.answers kind.Holds kind.Key kind.Val := by
  cases kind with
  | array => exact arrayLaws
  | rbtree => exact rbtreeLaws
  | hash => exact hashLaws
  | skiptable => exact skipLaws

theorem scanLaws : kind.scan.Laws kind.Holds kind.Copyable := by
  cases kind with
  | array => exact arrayScanLaws
  | rbtree => exact rbtreeScanLaws
  | hash => exact hashScanLaws
  | skiptable => exact skiptableScanLaws

theorem bounds : Engine.Bounds kind.answers kind.Holds kind.Key kind.Val kind.Fits := by
  cases kind with
  | array => exact arrayBounds
  | rbtree => exact rbtreeBounds
  | hash => exact hashBounds
  | skiptable => exact skipBounds

/-- The engine can copy the entry that it shows for the key, if it shows one. -/
def CopiesKey (s : kind.Store) (k : CString) : Prop :=
  ∀ v, kind.Key k → kind.engine.get s k = some (.str v) → kind.Copyable k ∧ kind.Copyable v

section CopiesKey
variable {kind} {s : kind.Store} {m : Map CString Entry}

theorem Holds.mapOf_between (h : kind.Holds s m) {a b : CString} (hc : ∀ k, inRange a b k = true → kind.CopiesKey s k) :
    MapOf kind.Copyable (between m a b) := by
  intro k e hm
  simp only [between, Option.ite_none_right_eq_some] at hm
  have hk : kind.Key k := (kind.bounds.stored h hm.2).1
  exact hc k (inRange_eq_true.mpr hm.1) e.value hk (kind.laws.get_present h hk hm.2)

theorem Holds.mapOf_copyable (h : kind.Holds s m) (hc : ∀ k, kind.CopiesKey s k) : MapOf kind.Copyable m := by
  intro k e hm
  have hk : kind.Key k := (kind.bounds.stored h hm).1
  exact hc k e.value hk (kind.laws.get_present h hk hm)

end CopiesKey

theorem erases : kind.engine.Erases kind.Holds kind.Key := by
  cases kind with
  | array => exact arrayDeleteLaws.erases
  | rbtree => exact rbtreeDeleteLaws.erases
  | hash => exact hashErases
  | skiptable => exact skipDeleteLaws.erases

theorem created_holds : kind.Holds kind.created Map.empty := by
  cases kind with
  | array => exact arrayCreate_holds
  | rbtree => exact rbtreeCreate_holds
  | hash => exact hashCreate_holds
  | skiptable => exact skipCreate_holds

end EngineKind

/-! ### Replies -/

theorem setReply_success {n : Int} : setReply n = ascii "SUCCESS" ↔ n = 0 := by
  rw [setReply]
  split
  · next hn => simp [hn]
  · next hn =>
    have herror : ascii "ERROR" ≠ ascii "SUCCESS" := by decide
    have hexist : ascii "EXIST" ≠ ascii "SUCCESS" := by decide
    simp only [hn, iff_false]
    split
    · exact herror
    · exact hexist

end KvStore
