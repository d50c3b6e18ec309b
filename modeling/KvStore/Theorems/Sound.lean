import KvStore.Theorems.Dispatch
import KvStore.Theorems.Values

/-! What every store satisfies that a server can come to, whatever its commands are and whatever its allocations, its
    disk and its peers do. -/

namespace KvStore

section Loops
variable {σ : Type} {E : Engine σ} {I : σ → Prop} {s s' : σ} {n : Int}

theorem Engine.KeepsWith.sync {val : CString → Prop} (K : E.KeepsWith val I) {data : List SyncData}
    (hdata : ∀ item ∈ data, val (.ofBytes item.value)) : ∀ {env : Nat → Env} {s : σ}, I s →
    syncDataToLocal E env s data = some (s', n) → I s' := by
  induction data with
  | nil =>
    intro env s h hs
    cases hs
    exact h
  | cons item data ih =>
    rw [List.forall_mem_cons] at hdata
    intro env s h hs
    simp only [syncDataToLocal, Option.bind_eq_bind, Option.bind_eq_some_iff] at hs
    obtain ⟨localValue, -, ⟨s₁, ret⟩, hitem, hs⟩ := hs
    have h₁ : I s₁ := by
      split at hitem
      · simp only [Option.bind_eq_some_iff] at hitem
        obtain ⟨localTimestamp, -, hitem⟩ := hitem
        split at hitem
        · exact K.modify hdata.1 h hitem
        · cases hitem
          exact h
      · exact K.set hdata.1 h hitem
    split at hs
    · cases hs
      exact h₁
    · exact ih hdata.2 h₁ hs

variable {set : Env → σ → List UInt8 → List UInt8 → Option (σ × Int)}
  (hset : ∀ {env s key value s' n}, I s → set env s key value = some (s', n) → I s')
include hset

theorem loadLoop_keeps {count : Nat} : ∀ {env : Nat → Env} {s : σ} {file : List UInt8}, I s →
    loadLoop set env count s file = some (s', n) → I s' := by
  induction count with
  | zero =>
    intro env s file h hs
    cases hs
    exact h
  | succ count ih =>
    intro env s file h hs
    rw [loadLoop] at hs
    split at hs
    · cases hs
      exact h
    · split at hs
      · cases hs
        exact h
      · simp only [Option.bind_eq_bind, Option.bind_eq_some_iff] at hs
        obtain ⟨⟨s₁, ret⟩, hone, hs⟩ := hs
        exact ih (hset h hone) hs

theorem load_keeps {env : Nat → Env} {file : List UInt8} (h : I s) (hs : load set env s file = some (s', n)) :
    I s' := by
  rw [load] at hs
  split at hs
  · cases hs
    exact h
  · exact loadLoop_keeps hset h hs

end Loops

theorem Engine.Keeps.setBuffers {σ : Type} {E : Engine σ} {I : σ → Prop} (K : E.Keeps I)
    (hset : ∀ env s k v, E.set env s k v = E.setWithTimestamp env s k v env.now) {env : Env} {s s' : σ}
    {key value : List UInt8} {n : Int} (h : I s) (hs : E.setBuffers env s key value = some (s', n)) : I s' := by
  simp only [Engine.setBuffers, Option.bind_eq_bind, Option.bind_eq_some_iff] at hs
  obtain ⟨k, -, v, -, hs⟩ := hs
  rw [hset] at hs
  exact K.set h hs

section Cases
variable {σ : Type} {B : Backend σ} {val : CString → Prop} {I : σ → Prop} {kind : EngineKind} {w : Surroundings}
  {tokens : Tokens} {count : Nat} {s s' : σ} {files files' : Files} {op : Op} {response : Bytes}

theorem Engine.KeepsWith.pullResponse {E : Engine σ} (K : E.KeepsWith val I) {env : Nat → Env} {junk : Nat → UInt64}
    {text : Bytes} (hdata : ∀ item ∈ parseRemoteDataStr junk text, val (.ofBytes item.value)) (h : I s)
    (hs : pullResponse E env junk s text = some (s', response)) : I s' := by
  rw [KvStore.pullResponse] at hs
  split at hs
  · cases hs
    exact h
  · simp only at hs
    split at hs
    · cases hs
      exact h
    · simp only [Option.bind_eq_bind, Option.bind_eq_some_iff] at hs
      obtain ⟨⟨s₁, ret⟩, hsync, hs⟩ := hs
      cases hs
      exact K.sync hdata h hsync

/-- What the calls of an engine keep when they are given certain values, a case keeps that gives it such values. -/
theorem Engine.KeepsWith.runCase (K : B.toEngine.KeepsWith val I)
    (hset : ∀ env s k v, B.set env s k v = B.setWithTimestamp env s k v env.now)
    (hmodify : ∀ env s k v, B.modify env s k v = B.modifyWithTimestamp env s k v env.now)
    (hvalue : op = .set ∧ 3 ≤ count ∨ op = .mod → ∀ v, tokens 2 = some v → val v)
    (hload : op = .load → ∀ {env s file s' n}, I s → B.load env s file = some (s', n) → I s')
    (hdata : ∀ text, ∀ item ∈ parseRemoteDataStr w.junk text, val (.ofBytes item.value)) (h : I s)
    (hs : runCase B kind w tokens count s files op = some (s', files', response)) : I s' := by
  cases runCase_runs hs with
  | set hcount _ hv hcall =>
    rw [hset] at hcall
    exact K.set (hvalue (Or.inl ⟨rfl, hcount⟩) _ hv) h hcall
  | del _ hcall => exact K.delete h hcall
  | mod _ hv hcall =>
    rw [hmodify] at hcall
    exact K.modify (hvalue (Or.inr rfl) _ hv) h hcall
  | load _ _ _ hcall => exact hload rfl h hcall
  | sync _ _ _ _ hcall => exact K.pullResponse (hdata _) h hcall
  | _ => exact h

end Cases

namespace EngineKind

/-- The store is laid out as the functions of its engine need it. An entry of the array or of the tree may have lost
    its value. -/
def Sound : (kind : EngineKind) → kind.Store → Prop
  | .array => fun T => ∃ es, T.Stores es ∧ ∀ e ∈ es, e.2.1 ≠ .freed
  | .rbtree => fun T => ∃ t, RbtreeInv T t
  | .hash => fun H => H.maxSlots = maxTableSize
  | .skiptable => fun T => ∃ L, SkipInv T L

theorem arrayKeeps : arrayEngine.Keeps (Sound .array) := by
  have hsame : Carries (fun _ => True) .array = Sound .array := by
    funext T
    simp [Carries, Sound]
  exact hsame ▸ .ofWith (arrayCarries trivial) fun _ => trivial

theorem rbtreeKeeps : rbtreeEngine.Keeps (Sound .rbtree) := by
  have hsame : Carries (fun _ => True) .rbtree = Sound .rbtree := by
    funext T
    simp [Carries, Sound]
  exact hsame ▸ .ofWith (rbtreeCarries trivial) fun _ => trivial

theorem hashKeeps : hashEngine.Keeps (Sound .hash) := hashKeepsSize

theorem skipKeeps : skiptableEngine.Keeps (Sound .skiptable) := by
  have hsame : Carries (fun _ => True) .skiptable = Sound .skiptable := by
    funext T
    simp [Carries, Sound]
  exact hsame ▸ .ofWith (skipCarries fun _ _ => trivial) fun _ => trivial

variable (kind : EngineKind)

theorem keeps : kind.engine.Keeps kind.Sound := by
  cases kind with
  | array => exact arrayKeeps
  | rbtree => exact rbtreeKeeps
  | hash => exact hashKeeps
  | skiptable => exact skipKeeps

theorem load_keeps {env : Nat → Env} {s s' : kind.Store} {file : List UInt8} {n : Int} (h : kind.Sound s)
    (hs : kind.backend.load env s file = some (s', n)) : kind.Sound s' := by
  cases kind with
  | array => exact KvStore.load_keeps (fun h hs => arrayKeeps.setBuffers arrayLaws.set_eq h hs) h hs
  | rbtree => exact KvStore.load_keeps (fun h hs => rbtreeKeeps.setBuffers rbtreeLaws.set_eq h hs) h hs
  | hash => exact KvStore.load_keeps (fun h hs => hashKeeps.setBuffers hashLaws.set_eq h hs) h hs
  | skiptable =>
    refine KvStore.load_keeps (fun {env T key value T' n} h hs => ?_) h hs
    obtain ⟨L, hi⟩ := h
    rcases hi.set_buffers hs with ⟨-, rfl⟩ | ⟨-, l₁, l₂, c, -, -, h', -⟩
    · exact ⟨L, hi⟩
    · exact ⟨_, h'⟩

theorem created_sound : kind.Sound kind.created := by
  cases kind with
  | array => exact ⟨[], ⟨rfl, Nat.zero_le _, by simp⟩, by simp⟩
  | rbtree => exact ⟨_, rbtreeCreate_inv⟩
  | hash => rfl
  | skiptable => exact ⟨[], skipCreate_inv⟩

variable {kind} {w : Surroundings} {tokens : Tokens} {count : Nat} {s s' : kind.Store} {files files' : Files} {op : Op}
  {response : Bytes}

/-- Every case that returns keeps the store sound. -/
theorem Sound.runCase (h : kind.Sound s)
    (hs : runCase kind.backend kind w tokens count s files op = some (s', files', response)) : kind.Sound s' :=
  (kind.keeps.toWith fun _ => True).runCase kind.laws.set_eq kind.laws.modify_eq (fun _ _ _ => trivial)
    (fun _ _ _ _ _ _ => kind.load_keeps) (fun _ _ _ => trivial) h hs

end EngineKind

namespace Globals

/-- The stores of all four engines are sound. -/
def Sound (g : Globals) : Prop := ∀ kind : EngineKind, kind.Sound (g.store kind)

theorem initial_sound (files : Files) : (initial files).Sound := EngineKind.created_sound

end Globals

namespace Dispatch

/-- What a line meets: its surroundings, what its slots give that it does not write, and the line. -/
abbrev Input := Surroundings × Tokens × Bytes

/-- A line of some connection. -/
def step (g : Globals) (i : Input) : Option (Globals × Bytes) := processCommand i.1 g i.2.1 i.2.2

/-- The globals that a server can come to from its start. -/
def Reached (g : Globals) : Prop := ∃ files inputs outs, Run.runs step (Globals.initial files) inputs = some (g, outs)

/-- What the case of a line keeps of its store, the line keeps of all four. -/
theorem step_keeps {I : (kind : EngineKind) → kind.Store → Prop} {g g' : Globals} {i : Input} {response : Bytes}
    (hcase : ∀ kind op s' files' r, commandOf i.2.2 = some (kind, op) →
      runCase kind.backend kind i.1 (lineTokens i.2.1 i.2.2) (pieces i.2.2).length (g.store kind) g.files op =
        some (s', files', r) → I kind s')
    (h : ∀ kind, I kind (g.store kind)) (hs : step g i = some (g', response)) : ∀ kind, I kind (g'.store kind) := by
  rcases processCommand_cases hs with ⟨-, rfl, -⟩ | ⟨kind, op, s', files', hcmd, rfl, hrun⟩
  · exact h
  · intro kind'
    by_cases hkind : kind' = kind
    · subst hkind
      rw [afterCase_store]
      exact hcase kind' op s' files' response hcmd hrun
    · rw [afterCase_store_ne hkind]
      exact h kind'

theorem step_sound {g g' : Globals} {i : Input} {response : Bytes} (h : g.Sound) (hs : step g i = some (g', response)) :
    g'.Sound :=
  step_keeps (fun kind _ _ _ _ _ hrun => (h kind).runCase hrun) h hs

theorem Reached.sound {g : Globals} (h : Reached g) : g.Sound := by
  obtain ⟨files, inputs, outs, hrun⟩ := h
  have hstep : ∀ g i g' response, Globals.Sound g → True → step g i = some (g', response) → Globals.Sound g' :=
    fun g i g' response hg _ hs => step_sound hg hs
  exact Run.runs_inv hstep hrun (fun _ _ => trivial) (Globals.initial_sound files)

end Dispatch

end KvStore
