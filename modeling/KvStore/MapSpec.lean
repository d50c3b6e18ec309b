import KvStore.Engine
import KvStore.Lib.FiniteMap
import KvStore.Lib.Run

/-! What an engine is for: a finite map from keys to entries. `MapSpec.step` is the map machine that answers
    the calls, and `Engine.Laws` the facts about the functions of an engine from which it follows that the
    engine does what that machine does. -/

namespace KvStore
open FiniteMap

structure Entry where
  value : CString
  timestamp : UInt64
deriving DecidableEq

/-- The entry as an engine stores it. -/
def Entry.stored (e : Entry) : CharPtr × UInt64 := (.str e.value, e.timestamp)

/-- The part of an entry that a map machine keeps. -/
structure View (α : Type) where
  proj : Entry → α
  value : α → CString
  value_proj : ∀ e, value (proj e) = e.value

/-- The machine that forgets the timestamps. -/
def View.values : View CString := ⟨Entry.value, id, fun _ => rfl⟩

def View.entries : View Entry := ⟨id, Entry.value, fun _ => rfl⟩

/-- The answers in which the engines differ: of `set` to a store of a size at which it takes no more entries,
    of `modify` to a store of some size without the key, and of `delete` and `exist` to a store without it. -/
structure Answers where
  full : Nat → Option Int
  modifyAbsent : Nat → Int
  deleteAbsent : Int
  existAbsent : Int

namespace MapSpec

section Step
variable {α : Type} (A : Answers) (V : View α) (m : Map CString α)

noncomputable def add (k : CString) (a : α) : Map CString α × Ret :=
  match A.full m.size, m k with
  | some n, _ => (m, .code n)
  | none, some _ => (m, .code 1)
  | none, none => (m.insert k a, .code 0)

noncomputable def replace (k : CString) (a : α) : Map CString α × Ret :=
  match m k with
  | some _ => (m.insert k a, .code 0)
  | none => (m, .code (A.modifyAbsent m.size))

noncomputable def step : Call → Map CString α × Ret
  | .set env k v => add A m k (V.proj ⟨v, env.now⟩)
  | .setWithTimestamp _ k v t => add A m k (V.proj ⟨v, t⟩)
  | .modify env k v => replace A m k (V.proj ⟨v, env.now⟩)
  | .modifyWithTimestamp _ k v t => replace A m k (V.proj ⟨v, t⟩)
  | .delete k =>
    match m k with
    | some _ => (m.erase k, .code 0)
    | none => (m, .code A.deleteAbsent)
  | .get k =>
    match m k with
    | some a => (m, .ptr (.str (V.value a)))
    | none => (m, .ptr .null)
  | .exist k =>
    match m k with
    | some _ => (m, .code 0)
    | none => (m, .code A.existAbsent)
  | .count => (m, .code m.size)

/-- The machine that leaves open what a deletion of a missing key returns. -/
noncomputable def looseStep : Call → Map CString α × (Ret → Prop)
  | .delete k => (m.erase k, fun r => ∃ n, r = .code n ∧ (m k ≠ none → n = 0))
  | c => ((step A V m c).1, fun r => r = (step A V m c).2)

end Step

end MapSpec

/-! ### Laws -/

section Laws
variable {σ α : Type}

/-- What the functions of an engine other than `delete` do to a store that holds the map `m`, for keys and
    values that satisfy `key` and `val` and when allocations succeed. -/
structure Engine.Laws (E : Engine σ) (A : Answers) (Holds : σ → Map CString Entry → Prop)
    (key val : CString → Prop) : Prop where
  set_eq : ∀ env s k v, E.set env s k v = E.setWithTimestamp env s k v env.now
  modify_eq : ∀ env s k v, E.modify env s k v = E.modifyWithTimestamp env s k v env.now
  set_full : ∀ {env s m k v t n}, Holds s m → key k → val v → A.full m.size = some n →
    E.setWithTimestamp env s k v t = some (s, n)
  set_present : ∀ {env s m k v t e}, Holds s m → key k → val v → A.full m.size = none → m k = some e →
    E.setWithTimestamp env s k v t = some (s, 1)
  set_absent : ∀ {env s m k v t}, Holds s m → key k → val v → env.Allocates → A.full m.size = none →
    m k = none → ∃ s', E.setWithTimestamp env s k v t = some (s', 0) ∧ Holds s' (m.insert k ⟨v, t⟩)
  modify_present : ∀ {env s m k v t e}, Holds s m → key k → val v → env.Allocates → m k = some e →
    ∃ s', E.modifyWithTimestamp env s k v t = some (s', 0) ∧ Holds s' (m.insert k ⟨v, t⟩)
  modify_absent : ∀ {env s m k v t}, Holds s m → key k → val v → m k = none →
    E.modifyWithTimestamp env s k v t = some (s, A.modifyAbsent m.size)
  get_present : ∀ {s m k e}, Holds s m → key k → m k = some e → E.get s k = some (.str e.value)
  get_absent : ∀ {s m k}, Holds s m → key k → m k = none → E.get s k = some .null
  exist_present : ∀ {s m k e}, Holds s m → key k → m k = some e → E.exist s k = some 0
  exist_absent : ∀ {s m k}, Holds s m → key k → m k = none → E.exist s k = some A.existAbsent
  count : ∀ {s m}, Holds s m → E.count s = some (m.size : Int)
  getTimestamp : ∀ {s m k e}, Holds s m → key k → m k = some e → E.getTimestamp s k = some e.timestamp

/-- What `delete` does to a store that holds the map `m`, as far as the view `V` shows. -/
structure Engine.DeleteLaws (E : Engine σ) (A : Answers) (V : View α) (Holds : σ → Map CString Entry → Prop)
    (key : CString → Prop) : Prop where
  present : ∀ {s m k e}, Holds s m → key k → m k = some e →
    ∃ s' m', E.delete s k = some (s', 0) ∧ Holds s' m' ∧ m'.mapVal V.proj = (m.mapVal V.proj).erase k
  absent : ∀ {s m k}, Holds s m → key k → m k = none → E.delete s k = some (s, A.deleteAbsent)

/-- A deletion takes the entry of the key out of the map, and returns 0 when there was one. -/
def Engine.Removes (E : Engine σ) (Holds : σ → Map CString Entry → Prop) (key : CString → Prop) : Prop :=
  ∀ {s m k}, Holds s m → key k → ∃ s' n, E.delete s k = some (s', n) ∧ (m k ≠ none → n = 0) ∧ Holds s' (m.erase k)

/-- A deletion leaves a store that holds some map. -/
def Engine.DeleteKeeps (E : Engine σ) (Holds : σ → Map CString Entry → Prop) (key : CString → Prop) : Prop :=
  ∀ {s m k}, Holds s m → key k → ∃ s' n m', E.delete s k = some (s', n) ∧ Holds s' m'

theorem Engine.DeleteLaws.keeps {E : Engine σ} {A : Answers} {V : View α} {Holds : σ → Map CString Entry → Prop}
    {key : CString → Prop} (D : E.DeleteLaws A V Holds key) : E.DeleteKeeps Holds key := by
  intro s m k h hk
  cases hm : m k with
  | some e =>
    obtain ⟨s', m', hs, h', -⟩ := D.present h hk hm
    exact ⟨s', 0, m', hs, h'⟩
  | none => exact ⟨s, _, m, D.absent h hk hm, h⟩

/-- A `set` that returns leaves a store that holds some map, even when its allocations fail. -/
def Engine.SetKeeps (E : Engine σ) (Holds : σ → Map CString Entry → Prop) (key val : CString → Prop) : Prop :=
  ∀ {env s m k v t s' n}, Holds s m → key k → val v → E.setWithTimestamp env s k v t = some (s', n) → ∃ m', Holds s' m'

variable {E : Engine σ} {A : Answers} {V : View α} {Holds : σ → Map CString Entry → Prop} {key val : CString → Prop}

/-- The store holds a map of which the machine sees `m`. -/
def Engine.Shows (Holds : σ → Map CString Entry → Prop) (V : View α) (s : σ) (m : Map CString α) : Prop :=
  ∃ m', Holds s m' ∧ m'.mapVal V.proj = m

namespace Engine.Laws
variable (L : E.Laws A Holds key val)
include L

theorem set_step {env : Env} {s : σ} {m : Map CString Entry} {k v : CString} {t : UInt64} (h : Holds s m)
    (hk : key k) (hv : val v) (ha : env.Allocates) : ∃ s' n m', E.setWithTimestamp env s k v t = some (s', n) ∧
      MapSpec.add A (m.mapVal V.proj) k (V.proj ⟨v, t⟩) = (m'.mapVal V.proj, .code n) ∧ Holds s' m' := by
  cases hf : A.full m.size with
  | some n => exact ⟨s, n, m, L.set_full h hk hv hf, by simp [MapSpec.add, hf, Map.size_mapVal], h⟩
  | none =>
    cases hm : m k with
    | some e => exact ⟨s, 1, m, L.set_present h hk hv hf hm, by simp [MapSpec.add, hf, hm, Map.size_mapVal], h⟩
    | none =>
      obtain ⟨s', hs, h'⟩ := L.set_absent (t := t) h hk hv ha hf hm
      exact ⟨s', 0, _, hs, by simp [MapSpec.add, hf, hm, Map.size_mapVal, Map.mapVal_insert], h'⟩

theorem modify_step {env : Env} {s : σ} {m : Map CString Entry} {k v : CString} {t : UInt64} (h : Holds s m)
    (hk : key k) (hv : val v) (ha : env.Allocates) : ∃ s' n m', E.modifyWithTimestamp env s k v t = some (s', n) ∧
      MapSpec.replace A (m.mapVal V.proj) k (V.proj ⟨v, t⟩) = (m'.mapVal V.proj, .code n) ∧ Holds s' m' := by
  cases hm : m k with
  | some e =>
    obtain ⟨s', hs, h'⟩ := L.modify_present (t := t) h hk hv ha hm
    exact ⟨s', 0, _, hs, by simp [MapSpec.replace, hm, Map.mapVal_insert], h'⟩
  | none =>
    exact ⟨s, _, m, L.modify_absent h hk hv hm, by simp [MapSpec.replace, hm, Map.size_mapVal], h⟩

/-- A call other than a deletion does what the map machine does. -/
theorem step_of_ne_delete {s : σ} {m : Map CString Entry} {c : Call} (h : Holds s m) (hok : c.Ok key val)
    (hc : ∀ k, c ≠ .delete k) : ∃ s', E.exec s c = some (s', (MapSpec.step A V (m.mapVal V.proj) c).2) ∧
      Engine.Shows Holds V s' (MapSpec.step A V (m.mapVal V.proj) c).1 := by
  cases c with
  | set env k v =>
    obtain ⟨ha, hk, hv⟩ := hok
    obtain ⟨s', n, m', hs, hm, h'⟩ := L.set_step (V := V) (t := env.now) h hk hv ha
    exact ⟨s', by simp [Engine.exec, MapSpec.step, L.set_eq, hs, hm], m', h', by simp [MapSpec.step, hm]⟩
  | setWithTimestamp env k v t =>
    obtain ⟨ha, hk, hv⟩ := hok
    obtain ⟨s', n, m', hs, hm, h'⟩ := L.set_step (V := V) (t := t) h hk hv ha
    exact ⟨s', by simp [Engine.exec, MapSpec.step, hs, hm], m', h', by simp [MapSpec.step, hm]⟩
  | modify env k v =>
    obtain ⟨ha, hk, hv⟩ := hok
    obtain ⟨s', n, m', hs, hm, h'⟩ := L.modify_step (V := V) (t := env.now) h hk hv ha
    exact ⟨s', by simp [Engine.exec, MapSpec.step, L.modify_eq, hs, hm], m', h', by simp [MapSpec.step, hm]⟩
  | modifyWithTimestamp env k v t =>
    obtain ⟨ha, hk, hv⟩ := hok
    obtain ⟨s', n, m', hs, hm, h'⟩ := L.modify_step (V := V) (t := t) h hk hv ha
    exact ⟨s', by simp [Engine.exec, MapSpec.step, hs, hm], m', h', by simp [MapSpec.step, hm]⟩
  | delete k => exact absurd rfl (hc k)
  | get k =>
    cases hm : m k with
    | some e =>
      have hs := L.get_present h hok hm
      exact ⟨s, by simp [Engine.exec, MapSpec.step, hm, hs, V.value_proj], m, h, by simp [MapSpec.step, hm]⟩
    | none =>
      have hs := L.get_absent h hok hm
      exact ⟨s, by simp [Engine.exec, MapSpec.step, hm, hs], m, h, by simp [MapSpec.step, hm]⟩
  | exist k =>
    cases hm : m k with
    | some e =>
      have hs := L.exist_present h hok hm
      exact ⟨s, by simp [Engine.exec, MapSpec.step, hm, hs], m, h, by simp [MapSpec.step, hm]⟩
    | none =>
      have hs := L.exist_absent h hok hm
      exact ⟨s, by simp [Engine.exec, MapSpec.step, hm, hs], m, h, by simp [MapSpec.step, hm]⟩
  | count =>
    have hs := L.count h
    exact ⟨s, by simp [Engine.exec, MapSpec.step, hs, Map.size_mapVal], m, h, by simp [MapSpec.step]⟩

/-- An engine that obeys the laws does, call by call, what the map machine does. -/
theorem simulates (D : E.DeleteLaws A V Holds key) :
    Run.Simulates E.exec (MapSpec.step A V) (Engine.Shows Holds V) (Call.Ok key val) := by
  rintro s _ c ⟨m, h, rfl⟩ hok
  by_cases hc : ∃ k, c = .delete k
  · obtain ⟨k, rfl⟩ := hc
    cases hm : m k with
    | some e =>
      obtain ⟨s', m', hs, h', heq⟩ := D.present h hok hm
      exact ⟨s', by simp [Engine.exec, MapSpec.step, hm, hs], m', h', by simp [MapSpec.step, hm, heq]⟩
    | none =>
      have hs := D.absent h hok hm
      exact ⟨s, by simp [Engine.exec, MapSpec.step, hm, hs], m, h, by simp [MapSpec.step, hm]⟩
  · exact L.step_of_ne_delete h hok (not_exists.mp hc)

/-- So does, but for what it returns for missing keys, an engine whose `delete` takes the key out of the map. -/
theorem refines (D : E.Removes Holds key) :
    Run.Refines E.exec (MapSpec.looseStep A .entries) Holds (Call.Ok key val) := by
  intro s m c h hok
  by_cases hc : ∃ k, c = .delete k
  · obtain ⟨k, rfl⟩ := hc
    obtain ⟨s', n, hs, hn, h'⟩ := D h hok
    exact ⟨s', .code n, by simp [Engine.exec, hs], ⟨n, rfl, hn⟩, h'⟩
  · obtain ⟨s', hs, m', h', heq⟩ := L.step_of_ne_delete (V := .entries) h hok (not_exists.mp hc)
    have hid : ∀ m : Map CString Entry, m.mapVal View.entries.proj = m := fun m => Map.mapVal_id
    rw [hid] at hs heq
    rw [hid] at heq
    have hloose : MapSpec.looseStep A .entries m c =
        ((MapSpec.step A .entries m c).1, fun r => r = (MapSpec.step A .entries m c).2) := by
      cases c with
      | delete k => exact absurd ⟨k, rfl⟩ hc
      | _ => rfl
    rw [hloose]
    exact ⟨s', _, hs, rfl, heq ▸ h'⟩

/-- A call that finds a store of a map leaves one. -/
theorem keeps (D : E.DeleteKeeps Holds key) {s : σ} {m : Map CString Entry} (h : Holds s m) {c : Call}
    (hok : c.Ok key val) : ∃ s' r m', E.exec s c = some (s', r) ∧ Holds s' m' := by
  cases c with
  | set env k v =>
    obtain ⟨ha, hk, hv⟩ := hok
    obtain ⟨s', n, m', hs, -, h'⟩ := L.set_step (V := .entries) (t := env.now) h hk hv ha
    exact ⟨s', .code n, m', by simp [Engine.exec, L.set_eq, hs], h'⟩
  | setWithTimestamp env k v t =>
    obtain ⟨ha, hk, hv⟩ := hok
    obtain ⟨s', n, m', hs, -, h'⟩ := L.set_step (V := .entries) (t := t) h hk hv ha
    exact ⟨s', .code n, m', by simp [Engine.exec, hs], h'⟩
  | modify env k v =>
    obtain ⟨ha, hk, hv⟩ := hok
    obtain ⟨s', n, m', hs, -, h'⟩ := L.modify_step (V := .entries) (t := env.now) h hk hv ha
    exact ⟨s', .code n, m', by simp [Engine.exec, L.modify_eq, hs], h'⟩
  | modifyWithTimestamp env k v t =>
    obtain ⟨ha, hk, hv⟩ := hok
    obtain ⟨s', n, m', hs, -, h'⟩ := L.modify_step (V := .entries) (t := t) h hk hv ha
    exact ⟨s', .code n, m', by simp [Engine.exec, hs], h'⟩
  | delete k =>
    obtain ⟨s', n, m', hs, h'⟩ := D h hok
    exact ⟨s', .code n, m', by simp [Engine.exec, hs], h'⟩
  | get k =>
    cases hm : m k with
    | some e => exact ⟨s, .ptr (.str e.value), m, by simp [Engine.exec, L.get_present h hok hm], h⟩
    | none => exact ⟨s, .ptr .null, m, by simp [Engine.exec, L.get_absent h hok hm], h⟩
  | exist k =>
    cases hm : m k with
    | some e => exact ⟨s, .code 0, m, by simp [Engine.exec, L.exist_present h hok hm], h⟩
    | none => exact ⟨s, .code A.existAbsent, m, by simp [Engine.exec, L.exist_absent h hok hm], h⟩
  | count => exact ⟨s, .code m.size, m, by simp [Engine.exec, L.count h], h⟩

/-- The calls that return keep a store of a map, even when the allocations of `set` fail. -/
theorem exec_keeps (D : E.DeleteKeeps Holds key) (S : E.SetKeeps Holds key val) {s s' : σ} {m : Map CString Entry}
    {c : Call} {r : Ret} (h : Holds s m) (hstr : c.Strings key val) (hmod : c.ModifyAllocates)
    (hs : E.exec s c = some (s', r)) : ∃ m', Holds s' m' := by
  have hok : c.Ok key val → ∃ m', Holds s' m' := by
    intro hok
    obtain ⟨s₂, r₂, m', hs₂, h'⟩ := L.keeps D h hok
    rw [hs] at hs₂
    cases hs₂
    exact ⟨m', h'⟩
  cases c with
  | set env k v =>
    obtain ⟨hk, hv⟩ := hstr
    simp only [Engine.exec, Option.map_eq_some_iff, Prod.mk.injEq] at hs
    obtain ⟨⟨s₁, n⟩, hs, rfl, -⟩ := hs
    rw [L.set_eq] at hs
    exact S h hk hv hs
  | setWithTimestamp env k v t =>
    obtain ⟨hk, hv⟩ := hstr
    simp only [Engine.exec, Option.map_eq_some_iff, Prod.mk.injEq] at hs
    obtain ⟨⟨s₁, n⟩, hs, rfl, -⟩ := hs
    exact S h hk hv hs
  | modify env k v => exact hok ⟨hmod, hstr⟩
  | modifyWithTimestamp env k v t => exact hok ⟨hmod, hstr⟩
  | delete k => exact hok hstr
  | get k => exact hok hstr
  | exist k => exact hok hstr
  | count => exact hok trivial

theorem reachable_of_modifyAllocates (D : E.DeleteKeeps Holds key) (S : E.SetKeeps Holds key val) {s s' : σ}
    {m : Map CString Entry} {calls : List Call} {outs : List Ret} (h : Holds s m)
    (hstr : ∀ c ∈ calls, c.Strings key val) (hmod : ∀ c ∈ calls, c.ModifyAllocates)
    (hrun : Run.runs E.exec s calls = some (s', outs)) : ∃ m', Holds s' m' := by
  have hok : ∀ c ∈ calls, c.Strings key val ∧ c.ModifyAllocates := fun c hc => ⟨hstr c hc, hmod c hc⟩
  refine Run.runs_inv (I := fun s => ∃ m, Holds s m) ?_ hrun hok ⟨m, h⟩
  rintro s c s₁ r ⟨m, h⟩ ⟨hstr, hmod⟩ hs
  exact L.exec_keeps D S h hstr hmod hs

/-- A run from a store of a map ends in a store of one. -/
theorem reachable (D : E.DeleteKeeps Holds key) {s s' : σ} {m : Map CString Entry} {calls : List Call}
    {outs : List Ret} (h : Holds s m) (hok : ∀ c ∈ calls, c.Ok key val)
    (hrun : Run.runs E.exec s calls = some (s', outs)) : ∃ m', Holds s' m' := by
  refine Run.runs_inv (I := fun s => ∃ m, Holds s m) ?_ hrun hok ⟨m, h⟩
  rintro s c s₁ r ⟨m, h⟩ hc hs
  obtain ⟨s₂, r₂, m', hs₂, h'⟩ := L.keeps D h hc
  rw [hs] at hs₂
  cases hs₂
  exact ⟨m', h'⟩

end Engine.Laws

end Laws

/-! ### Invariants -/

/-- The functions of the engine that change a store keep `I`, whenever they return. -/
structure Engine.Keeps {σ : Type} (E : Engine σ) (I : σ → Prop) : Prop where
  set : ∀ {env s k v t s' n}, I s → E.setWithTimestamp env s k v t = some (s', n) → I s'
  modify : ∀ {env s k v t s' n}, I s → E.modifyWithTimestamp env s k v t = some (s', n) → I s'
  delete : ∀ {s k s' n}, I s → E.delete s k = some (s', n) → I s'

/-- They keep `I` as long as the values that they are to store satisfy `val`. -/
structure Engine.KeepsWith {σ : Type} (E : Engine σ) (val : CString → Prop) (I : σ → Prop) : Prop where
  set : ∀ {env s k v t s' n}, val v → I s → E.setWithTimestamp env s k v t = some (s', n) → I s'
  modify : ∀ {env s k v t s' n}, val v → I s → E.modifyWithTimestamp env s k v t = some (s', n) → I s'
  delete : ∀ {s k s' n}, I s → E.delete s k = some (s', n) → I s'

namespace Engine.Keeps
variable {σ : Type} {E : Engine σ} {I : σ → Prop} {s s' : σ}

theorem toWith (K : E.Keeps I) (val : CString → Prop) : E.KeepsWith val I :=
  ⟨fun _ h hs => K.set h hs, fun _ h hs => K.modify h hs, K.delete⟩

theorem ofWith {val : CString → Prop} (K : E.KeepsWith val I) (hval : ∀ v, val v) : E.Keeps I :=
  ⟨fun h hs => K.set (hval _) h hs, fun h hs => K.modify (hval _) h hs, K.delete⟩

variable (K : E.Keeps I)
  (hset : ∀ env s k v, E.set env s k v = E.setWithTimestamp env s k v env.now)
  (hmodify : ∀ env s k v, E.modify env s k v = E.modifyWithTimestamp env s k v env.now)
include K hset hmodify

theorem exec {c : Call} {r : Ret} (h : I s) (hs : E.exec s c = some (s', r)) : I s' := by
  cases c with
  | set env k v =>
    obtain ⟨⟨s₁, n⟩, hcall, heq⟩ := Option.map_eq_some_iff.mp hs
    cases heq
    exact K.set h (hset env s k v ▸ hcall)
  | setWithTimestamp env k v t =>
    obtain ⟨⟨s₁, n⟩, hcall, heq⟩ := Option.map_eq_some_iff.mp hs
    cases heq
    exact K.set h hcall
  | modify env k v =>
    obtain ⟨⟨s₁, n⟩, hcall, heq⟩ := Option.map_eq_some_iff.mp hs
    cases heq
    exact K.modify h (hmodify env s k v ▸ hcall)
  | modifyWithTimestamp env k v t =>
    obtain ⟨⟨s₁, n⟩, hcall, heq⟩ := Option.map_eq_some_iff.mp hs
    cases heq
    exact K.modify h hcall
  | delete k =>
    obtain ⟨⟨s₁, n⟩, hcall, heq⟩ := Option.map_eq_some_iff.mp hs
    cases heq
    exact K.delete h hcall
  | get k =>
    obtain ⟨p, -, heq⟩ := Option.map_eq_some_iff.mp hs
    cases heq
    exact h
  | exist k =>
    obtain ⟨n, -, heq⟩ := Option.map_eq_some_iff.mp hs
    cases heq
    exact h
  | count =>
    obtain ⟨n, -, heq⟩ := Option.map_eq_some_iff.mp hs
    cases heq
    exact h

/-- Whatever its calls and their allocations come to, a run keeps what the functions keep. -/
theorem runs {calls : List Call} {outs : List Ret} (h : I s) (hrun : Run.runs E.exec s calls = some (s', outs)) : I s' :=
  Run.runs_inv (fun _ _ _ _ hI _ hs => K.exec hset hmodify hI hs) hrun (fun _ _ => trivial) h

end Engine.Keeps

end KvStore
