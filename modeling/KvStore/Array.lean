import KvStore.Engine
import Mathlib.Logic.Function.Basic

/-! The array engine (`kv_store_array.c`): `kvsArraySet` is `kvs_array_set`, and so on. Slots that no call wrote
    are `none`; reading one is a fault. -/

namespace KvStore

/-- `kvs_array_item_t` -/
structure ArrayItem where
  key : CharPtr
  value : CharPtr
  timestamp : UInt64

/-- `kvs_array_t`; nothing reads its field `idx`. -/
structure KvArray where
  table : Nat → Option ArrayItem
  total : Nat

def kvsArraySize : Nat := 1024 * 1024

namespace KvArray

/-- `inst->table[i]` -/
def item (T : KvArray) (i : Nat) : Option ArrayItem := if i < kvsArraySize then T.table i else none

/-- `inst->table[i] = item` -/
def setItem (T : KvArray) (i : Nat) (item : ArrayItem) : Option KvArray :=
  if i < kvsArraySize then some { T with table := Function.update T.table i (some item) } else none

end KvArray

/-- `inst->table[i].key && strcmp(inst->table[i].key, key) == 0` -/
def ArrayItem.hasKey (item : ArrayItem) (key : CString) : Option Bool :=
  match item.key with
  | .null => some false
  | .freed => none
  | .str k => some (strcmp k key = 0)

/-- The loop from slot `i` on, with `n` slots to go, that stops at the key. -/
def arrayFindLoop (T : KvArray) (key : CString) : Nat → Nat → Option (Option Nat)
  | 0, _ => some none
  | n + 1, i => do
    let item ← T.item i
    let here ← item.hasKey key
    if here then some (some i) else arrayFindLoop T key n (i + 1)

def kvsArrayFindIndex (T : KvArray) (key : CString) : Option (Option Nat) := arrayFindLoop T key T.total 0

/-- The loop of `kvs_array_set_with_timestamp` that looks for a slot without a key. -/
def arrayHoleLoop (T : KvArray) : Nat → Nat → Option (Option Nat)
  | 0, _ => some none
  | n + 1, i => do
    let item ← T.item i
    if item.key = .null then some (some i) else arrayHoleLoop T n (i + 1)

/-- `kvs_array_create` when its allocation succeeds. -/
def kvsArrayCreate : KvArray where
  table _ := none
  total := 0

def kvsArrayGet (T : KvArray) (key : CString) : Option CharPtr := do
  match ← kvsArrayFindIndex T key with
  | none => some .null
  | some i => do
    let item ← T.item i
    some item.value

/-- `kvs_array_set_with_timestamp`; a full table and a failed first allocation have the same code. -/
def kvsArraySetWithTimestamp (env : Env) (T : KvArray) (key value : CString) (timestamp : UInt64) :
    Option (KvArray × Int) :=
  if kvsArraySize ≤ T.total then some (T, -2)
  else do
    let str ← kvsArrayGet T key
    if str ≠ .null then some (T, 1)
    else if env.alloc 0 = false then some (T, -2)
    else if env.alloc 1 = false then some (T, -3)
    else do
      let item : ArrayItem := ⟨.str key, .str value, timestamp⟩
      match ← arrayHoleLoop T T.total 0 with
      | some i => do
        let T ← T.setItem i item
        some ({ T with total := T.total + 1 }, 0)
      | none =>
        if T.total < kvsArraySize then do
          let T ← T.setItem T.total item
          some ({ T with total := T.total + 1 }, 0)
        else some (T, 0)

def kvsArraySet (env : Env) (T : KvArray) (key value : CString) : Option (KvArray × Int) :=
  kvsArraySetWithTimestamp env T key value env.now

def ArrayItem.cleared : ArrayItem := ⟨.null, .null, 0⟩

/-- `kvs_array_delete`; the last item fills the slot that the deletion empties. -/
def kvsArrayDelete (T : KvArray) (key : CString) : Option (KvArray × Int) := do
  match ← kvsArrayFindIndex T key with
  | none => some (T, 1)
  | some idx => do
    let item ← T.item idx
    item.key.free
    item.value.free
    let T ← T.setItem idx .cleared
    if idx + 1 = T.total then some ({ T with total := T.total - 1 }, 0)
    else do
      let last ← T.item (T.total - 1)
      let T ← T.setItem idx last
      let T ← T.setItem (T.total - 1) .cleared
      some ({ T with total := T.total - 1 }, 0)

/-- `kvs_array_modify_with_timestamp`; a failed allocation leaves a null value behind. -/
def kvsArrayModifyWithTimestamp (env : Env) (T : KvArray) (key value : CString) (timestamp : UInt64) :
    Option (KvArray × Int) :=
  if T.total = 0 then some (T, -2)
  else do
    match ← kvsArrayFindIndex T key with
    | none => some (T, -4)
    | some i => do
      let item ← T.item i
      item.value.free
      if env.alloc 0 = false then do
        let T ← T.setItem i { item with value := .null }
        some (T, -3)
      else do
        let T ← T.setItem i { item with value := .str value, timestamp := timestamp }
        some (T, 0)

def kvsArrayModify (env : Env) (T : KvArray) (key value : CString) : Option (KvArray × Int) :=
  kvsArrayModifyWithTimestamp env T key value env.now

def kvsArrayExist (T : KvArray) (key : CString) : Option Int := do
  let str ← kvsArrayGet T key
  if str = .null then some (-1) else some 0

def kvsArrayCount (T : KvArray) : Option Int := some T.total

def kvsArrayGetTimestamp (T : KvArray) (key : CString) : Option UInt64 := do
  match ← kvsArrayFindIndex T key with
  | none => some 0
  | some i => do
    let item ← T.item i
    some item.timestamp

def arrayEngine : Engine KvArray where
  set := kvsArraySet
  setWithTimestamp := kvsArraySetWithTimestamp
  modify := kvsArrayModify
  modifyWithTimestamp := kvsArrayModifyWithTimestamp
  delete := kvsArrayDelete
  get := kvsArrayGet
  exist := kvsArrayExist
  count := kvsArrayCount
  getTimestamp := kvsArrayGetTimestamp

end KvStore
