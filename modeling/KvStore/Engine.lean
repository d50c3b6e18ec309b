import KvStore.CString

/-! The calls that the four storage engines share (`kvs_*_set`, `_modify`, `_delete`, `_get`, `_exist`,
    `_count`, `_get_timestamp`), and what a call takes from its surroundings: the clock, the outcomes of
    `kvs_malloc` and the coin tosses of `rand`. -/

namespace KvStore

/-- An address of the memory that an engine keeps its nodes in. -/
abbrev Ptr := Nat

/-- What a `char *` field of an entry holds. A failed `modify` leaves a null or a freed pointer behind. -/
inductive CharPtr where
  | null
  | freed
  | str (s : CString)
deriving DecidableEq

/-- `kvs_free`; freeing a pointer twice is a fault. -/
def CharPtr.free : CharPtr → Option Unit
  | .freed => none
  | .null => some ()
  | .str _ => some ()

/-- What one call finds in its surroundings: the reading of `get_current_timestamp_ms`, whether the
    `n`-th `kvs_malloc` of the call succeeds, and whether the `n`-th `rand() < RAND_MAX * P` holds. -/
structure Env where
  now : UInt64
  alloc : Nat → Bool
  rand : Nat → Bool

namespace Env

/-- Every allocation of the call succeeds. -/
def Allocates (env : Env) : Prop := ∀ n, env.alloc n = true

/-- The surroundings of a callee that runs after `n` allocations of its caller. -/
def after (env : Env) (n : Nat) : Env := { env with alloc := fun i => env.alloc (n + i) }

theorem Allocates.after {env : Env} (h : env.Allocates) (n : Nat) : (env.after n).Allocates := fun i => h (n + i)

/-- Surroundings where every allocation succeeds and no coin toss promotes a node. -/
def calm (now : UInt64) : Env := ⟨now, fun _ => true, fun _ => false⟩

theorem calm_allocates (now : UInt64) : (calm now).Allocates := fun _ => rfl

end Env

/-- The functions of one engine. `none` stands for a fault: the code reads memory it may not read. -/
structure Engine (σ : Type) where
  set : Env → σ → CString → CString → Option (σ × Int)
  setWithTimestamp : Env → σ → CString → CString → UInt64 → Option (σ × Int)
  modify : Env → σ → CString → CString → Option (σ × Int)
  modifyWithTimestamp : Env → σ → CString → CString → UInt64 → Option (σ × Int)
  delete : σ → CString → Option (σ × Int)
  get : σ → CString → Option CharPtr
  exist : σ → CString → Option Int
  count : σ → Option Int
  getTimestamp : σ → CString → Option UInt64

/-- One call of an engine. -/
inductive Call where
  | set (env : Env) (key value : CString)
  | setWithTimestamp (env : Env) (key value : CString) (timestamp : UInt64)
  | modify (env : Env) (key value : CString)
  | modifyWithTimestamp (env : Env) (key value : CString) (timestamp : UInt64)
  | delete (key : CString)
  | get (key : CString)
  | exist (key : CString)
  | count

/-- What a call returns. -/
inductive Ret where
  | code (n : Int)
  | ptr (p : CharPtr)
deriving DecidableEq

/-- Any C string can be a key or a value. -/
def AnyString (_ : CString) : Prop := True

namespace Call

/-- The strings of the call satisfy `key` and `val`. -/
def Strings (key val : CString → Prop) : Call → Prop
  | .set _ k v => key k ∧ val v
  | .setWithTimestamp _ k v _ => key k ∧ val v
  | .modify _ k v => key k ∧ val v
  | .modifyWithTimestamp _ k v _ => key k ∧ val v
  | .delete k => key k
  | .get k => key k
  | .exist k => key k
  | .count => True

/-- The allocations of the call succeed, if it is a `modify`. -/
def ModifyAllocates : Call → Prop
  | .modify env _ _ => env.Allocates
  | .modifyWithTimestamp env _ _ _ => env.Allocates
  | _ => True

/-- The strings of the call satisfy `key` and `val`, and its allocations succeed. -/
def Ok (key val : CString → Prop) : Call → Prop
  | .set env k v => env.Allocates ∧ key k ∧ val v
  | .setWithTimestamp env k v _ => env.Allocates ∧ key k ∧ val v
  | .modify env k v => env.Allocates ∧ key k ∧ val v
  | .modifyWithTimestamp env k v _ => env.Allocates ∧ key k ∧ val v
  | .delete k => key k
  | .get k => key k
  | .exist k => key k
  | .count => True

end Call

namespace Engine

/-- One call of the engine: the next store and what is returned. -/
def exec {σ : Type} (E : Engine σ) (s : σ) : Call → Option (σ × Ret)
  | .set env k v => (E.set env s k v).map fun (s, n) => (s, .code n)
  | .setWithTimestamp env k v t => (E.setWithTimestamp env s k v t).map fun (s, n) => (s, .code n)
  | .modify env k v => (E.modify env s k v).map fun (s, n) => (s, .code n)
  | .modifyWithTimestamp env k v t => (E.modifyWithTimestamp env s k v t).map fun (s, n) => (s, .code n)
  | .delete k => (E.delete s k).map fun (s, n) => (s, .code n)
  | .get k => (E.get s k).map fun p => (s, .ptr p)
  | .exist k => (E.exist s k).map fun n => (s, .code n)
  | .count => (E.count s).map fun n => (s, .code n)

section Exec
variable {σ : Type} {E : Engine σ} {env : Env} {s s' : σ} {k v : CString} {n : Int}

theorem exec_set (h : E.set env s k v = some (s', n)) : E.exec s (.set env k v) = some (s', .code n) := by
  simp [exec, h]

theorem exec_modify (h : E.modify env s k v = some (s', n)) : E.exec s (.modify env k v) = some (s', .code n) := by
  simp [exec, h]

end Exec

end Engine

end KvStore
