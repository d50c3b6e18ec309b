import KvStore.Engine

/-! The hash engine (`kv_store_hash.c`, built with `ENABLE_KEY_POINTER`): `kvsHashSet` is `kvs_hash_set`, and so
    on. A bucket is the list of the nodes of its chain. Reading a bucket at an index outside the table is a
    fault, as is freeing a value twice. -/

namespace KvStore

structure HashNode where
  key : CString
  value : CharPtr
  timestamp : UInt64

structure Hash where
  table : Nat → List HashNode
  maxSlots : Int
  count : Int

def maxTableSize : Nat := 1024

/-- The loop of `_hash`: `sum += key[i]` adds a signed `char` to an `int`. -/
def hashSum : Int → List UInt8 → Int
  | sum, [] => sum
  | sum, c :: key => hashSum ((sum + c.toInt8.toInt).bmod UInt32.size) key

/-- `_hash`; the remainder has the sign of the sum. -/
def hash (key : CString) (size : Int) : Int := (hashSum 0 key.bytes).tmod size

def Hash.chain (H : Hash) (slot : Int) : Option (List HashNode) :=
  if 0 ≤ slot ∧ slot < H.maxSlots then some (H.table slot.toNat) else none

/-- `hash->table[slot] = chain`, at a slot that was read before. -/
def Hash.setChain (H : Hash) (slot : Int) (chain : List HashNode) : Hash :=
  { H with table := Function.update H.table slot.toNat chain }

/-- `_create_node_with_timestamp`; null when one of its three allocations fails. -/
def createHashNode (env : Env) (key value : CString) (timestamp : UInt64) : Option HashNode :=
  if env.alloc 0 = false then none
  else if env.alloc 1 = false then none
  else if env.alloc 2 = false then none
  else some ⟨key, .str value, timestamp⟩

/-- The loop that walks a chain to the node with the key. -/
def findHashNode (key : CString) : List HashNode → Option HashNode
  | [] => none
  | node :: next => if strcmp node.key key = 0 then some node else findHashNode key next

/-- The chain after a write to its node with the key. -/
def writeHashNode (key : CString) (f : HashNode → HashNode) : List HashNode → List HashNode
  | [] => []
  | node :: next => if strcmp node.key key = 0 then f node :: next else node :: writeHashNode key f next

/-- The loop of `kvs_hash_delete` over the nodes behind the head: the node it unlinks and the nodes it leaves. -/
def unlinkHashNode (key : CString) : List HashNode → Option (HashNode × List HashNode)
  | [] => none
  | node :: next =>
    if strcmp node.key key = 0 then some (node, next)
    else (unlinkHashNode key next).map fun (tmp, rest) => (tmp, node :: rest)

/-- `kvs_hash_create` when its allocation succeeds. -/
def kvsHashCreate : Hash where
  table _ := []
  maxSlots := maxTableSize
  count := 0

def kvsHashSetWithTimestamp (env : Env) (H : Hash) (key value : CString) (timestamp : UInt64) :
    Option (Hash × Int) := do
  let slot := hash key H.maxSlots
  let chain ← H.chain slot
  match findHashNode key chain with
  | some _ => some (H, 1)
  | none =>
    match createHashNode env key value timestamp with
    | none => some (H, -3)
    | some node => some ({ H.setChain slot (node :: chain) with count := H.count + 1 }, 0)

def kvsHashSet (env : Env) (H : Hash) (key value : CString) : Option (Hash × Int) :=
  kvsHashSetWithTimestamp env H key value env.now

def kvsHashGet (H : Hash) (key : CString) : Option CharPtr := do
  let chain ← H.chain (hash key H.maxSlots)
  match findHashNode key chain with
  | some node => some node.value
  | none => some .null

/-- `kvs_hash_modify_with_timestamp`; when the allocation fails the node keeps the pointer to the freed value. -/
def kvsHashModifyWithTimestamp (env : Env) (H : Hash) (key value : CString) (timestamp : UInt64) :
    Option (Hash × Int) := do
  let slot := hash key H.maxSlots
  let chain ← H.chain slot
  match findHashNode key chain with
  | none => some (H, -2)
  | some node => do
    node.value.free
    if env.alloc 0 = false then
      some (H.setChain slot (writeHashNode key (fun n => { n with value := .freed }) chain), -3)
    else
      some (H.setChain slot
        (writeHashNode key (fun n => { n with value := .str value, timestamp := timestamp }) chain), 0)

def kvsHashModify (env : Env) (H : Hash) (key value : CString) : Option (Hash × Int) :=
  kvsHashModifyWithTimestamp env H key value env.now

def kvsHashCount (H : Hash) : Option Int := some H.count

/-- `kvs_hash_delete`; it returns 0 also when a chain that is not empty has no node for the key. -/
def kvsHashDelete (H : Hash) (key : CString) : Option (Hash × Int) := do
  let slot := hash key H.maxSlots
  let chain ← H.chain slot
  match chain with
  | [] => some (H, -2)
  | node :: next =>
    if strcmp node.key key = 0 then do
      node.value.free
      some ({ H.setChain slot next with count := H.count - 1 }, 0)
    else
      match unlinkHashNode key next with
      | none => some (H, 0)
      | some (tmp, rest) => do
        tmp.value.free
        some ({ H.setChain slot (node :: rest) with count := H.count - 1 }, 0)

def kvsHashExist (H : Hash) (key : CString) : Option Int := do
  let value ← kvsHashGet H key
  if value = .null then some (-1) else some 0

def kvsHashGetTimestamp (H : Hash) (key : CString) : Option UInt64 := do
  let chain ← H.chain (hash key H.maxSlots)
  match findHashNode key chain with
  | some node => some node.timestamp
  | none => some 0

def hashEngine : Engine Hash where
  set := kvsHashSet
  setWithTimestamp := kvsHashSetWithTimestamp
  modify := kvsHashModify
  modifyWithTimestamp := kvsHashModifyWithTimestamp
  delete := kvsHashDelete
  get := kvsHashGet
  exist := kvsHashExist
  count := kvsHashCount
  getTimestamp := kvsHashGetTimestamp

end KvStore
