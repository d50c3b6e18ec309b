import KvStore.Engine

/-! The skip list engine (`kv_store_skiptable.c`): `kvsSkiptableSet` is `kvs_skiptable_set`, and so on. A node and
    its array of forward links live at one address; a slot that no one wrote is `none`. Reading such a slot, a
    slot behind the end of the array or a node that is not allocated is a fault.

    The functions take the objects that their `const char *` arguments point to, which need not be terminated:
    reading on behind the last byte is a fault too. -/

namespace KvStore

def maxLevel : Nat := 32

/-- `Node` without its links; `slots` is the length of its array `forward`. -/
structure SkipNode where
  key : CString
  value : CString
  timestamp : Option UInt64
  slots : Nat

/-- The table and its memory: `nodes` holds the nodes, `links p i` is slot `i` of the array of the node at `p`, and
    `next` the first address never handed out. The null pointer is 0. -/
structure Skiptable where
  level : Nat
  header : Ptr
  size : Int
  nodes : Ptr → Option SkipNode
  links : Ptr → Nat → Option Ptr
  next : Ptr

namespace Skiptable

/-- `p->forward[i]` -/
def forward (T : Skiptable) (p : Ptr) (i : Nat) : Option Ptr := do
  let n ← T.nodes p
  if i < n.slots then T.links p i else none

/-- `p->forward[i] = q` -/
def setForward (T : Skiptable) (p : Ptr) (i : Nat) (q : Ptr) : Option Skiptable := do
  let n ← T.nodes p
  if i < n.slots then
    some { T with links := Function.update T.links p (Function.update (T.links p) i (some q)) }
  else none

/-- More rounds than any walk over distinct nodes takes. -/
def fuel (T : Skiptable) : Nat := T.next + 1

end Skiptable

/-- `strncpy(dst, b, 255)` into an array of 256 bytes whose last byte is 0. -/
def strncpy255 (b : List UInt8) : Option CString := (strncpyBytes 255 b).map CString.ofBytes

/-- The loop of `random_level` with `n` rounds to go. -/
def randomLevelLoop (env : Env) : Nat → Nat → Nat
  | 0, level => level
  | n + 1, level =>
    if env.rand (level - 1) = true ∧ level < maxLevel then randomLevelLoop env n (level + 1) else level

def randomLevel (env : Env) : Nat := randomLevelLoop env maxLevel 1

/-! ### The search -/

/-- The inner loop of a search: along level `i` while the next key is smaller. -/
def skipWalk (T : Skiptable) (key : List UInt8) (i : Nat) : Nat → Ptr → Option Ptr
  | 0, _ => none
  | fuel + 1, current => do
    let q ← T.forward current i
    if q = 0 then some current
    else do
      let n ← T.nodes q
      let c ← strcmpBuf n.key key
      if c < 0 then skipWalk T key i fuel q else some current

/-- The outer loop of a search over the levels below `i`: the node it ends at, and the nodes that it leaves each
    level at, put before `update`. -/
def skipSearch (T : Skiptable) (key : List UInt8) : Nat → Ptr → List Ptr → Option (Ptr × List Ptr)
  | 0, current, update => some (current, update)
  | i + 1, current, update => do
    let current ← skipWalk T key i T.fuel current
    skipSearch T key i current (current :: update)

/-- The node that follows where the search ends, if it has the key, and the array `update` of the search. -/
def skipFind (T : Skiptable) (key : List UInt8) : Option (Option Ptr × List Ptr) := do
  let (current, update) ← skipSearch T key (T.level + 1) T.header []
  let current ← T.forward current 0
  if current = 0 then some (none, update)
  else do
    let n ← T.nodes current
    let c ← strcmpBuf n.key key
    if c = 0 then some (some current, update) else some (none, update)

/-! ### Updates -/

/-- `create_node_with_timestamp`, which puts the node at the next address; null when an allocation fails. -/
def createSkipNode (env : Env) (T : Skiptable) (level : Nat) (key value : List UInt8) (timestamp : UInt64) :
    Option (Option (Skiptable × Ptr)) :=
  if env.alloc 0 = false then some none
  else do
    let k ← strncpy255 key
    let v ← strncpy255 value
    if env.alloc 1 = false then some none
    else
      let node : SkipNode := ⟨k, v, some timestamp, level + 1⟩
      let T' := { T with
        nodes := Function.update T.nodes T.next (some node)
        links := Function.update T.links T.next fun _ => none
        next := T.next + 1 }
      some (some (T', T.next))

/-- The loop of an insertion over `n` levels from level `i` on. -/
def skipLink (update : List Ptr) (node : Ptr) : Nat → Nat → Skiptable → Option Skiptable
  | 0, _, T => some T
  | n + 1, i, T => do
    let u ← update[i]?
    let q ← T.forward u i
    let T ← T.setForward node i q
    let T ← T.setForward u i node
    skipLink update node n (i + 1) T

/-- The loop of a deletion over `n` levels from level `i` on; it stops at the first level without the node. -/
def skipUnlink (update : List Ptr) (node : Ptr) : Nat → Nat → Skiptable → Option Skiptable
  | 0, _, T => some T
  | n + 1, i, T => do
    let u ← update[i]?
    let q ← T.forward u i
    if q ≠ node then some T
    else do
      let q ← T.forward node i
      let T ← T.setForward u i q
      skipUnlink update node n (i + 1) T

/-- The loop that takes empty levels off the table. -/
def skipLower (T : Skiptable) : Nat → Option Nat
  | 0 => some 0
  | level + 1 => do
    let q ← T.forward T.header (level + 1)
    if q = 0 then skipLower T level else some (level + 1)

/-- `kvs_skiptable_create` when its allocations succeed. -/
def kvsSkiptableCreate : Skiptable where
  level := 0
  header := 1
  size := 0
  nodes p := if p = 1 then some ⟨.ofBytes [], .ofBytes [], none, maxLevel + 1⟩ else none
  links p _ := if p = 1 then some 0 else none
  next := 2

def kvsSkiptableSetWithTimestamp (env : Env) (T : Skiptable) (key value : List UInt8) (timestamp : UInt64) :
    Option (Skiptable × Int) := do
  let (found, update) ← skipFind T key
  if found.isSome then some (T, 1)
  else do
    let newLevel := randomLevel env
    match ← createSkipNode env T newLevel key value timestamp with
    | none => some (T, -1)
    | some (T, node) => do
      -- levels that the table does not have yet start at the header
      let update := update ++ List.replicate (newLevel - T.level) T.header
      let T := { T with level := max T.level newLevel }
      let T ← skipLink update node (newLevel + 1) 0 T
      some ({ T with size := T.size + 1 }, 0)

def kvsSkiptableSet (env : Env) (T : Skiptable) (key value : List UInt8) : Option (Skiptable × Int) :=
  kvsSkiptableSetWithTimestamp env T key value env.now

def kvsSkiptableGet (T : Skiptable) (key : List UInt8) : Option CharPtr := do
  let (found, _) ← skipFind T key
  match found with
  | none => some .null
  | some p => do
    let n ← T.nodes p
    some (.str n.value)

def kvsSkiptableModifyWithTimestamp (T : Skiptable) (key value : List UInt8) (timestamp : UInt64) :
    Option (Skiptable × Int) := do
  let (found, _) ← skipFind T key
  match found with
  | none => some (T, -1)
  | some p => do
    let n ← T.nodes p
    let v ← strncpy255 value
    let node := { n with value := v, timestamp := some timestamp }
    some ({ T with nodes := Function.update T.nodes p (some node) }, 0)

def kvsSkiptableModify (env : Env) (T : Skiptable) (key value : List UInt8) : Option (Skiptable × Int) :=
  kvsSkiptableModifyWithTimestamp T key value env.now

def kvsSkiptableCount (T : Skiptable) : Option Int := some T.size

def kvsSkiptableDelete (T : Skiptable) (key : List UInt8) : Option (Skiptable × Int) := do
  let (found, update) ← skipFind T key
  match found with
  | none => some (T, -1)
  | some current => do
    let T ← skipUnlink update current (T.level + 1) 0 T
    let level ← skipLower T T.level
    let _ ← T.nodes current
    some ({ T with level := level, size := T.size - 1, nodes := Function.update T.nodes current none }, 0)

def kvsSkiptableExist (T : Skiptable) (key : List UInt8) : Option Int := do
  let value ← kvsSkiptableGet T key
  if value = .null then some (-1) else some 0

def kvsSkiptableGetTimestamp (T : Skiptable) (key : List UInt8) : Option UInt64 := do
  let (found, _) ← skipFind T key
  match found with
  | none => some 0
  | some p => do
    let n ← T.nodes p
    n.timestamp

/-- The engine on terminated strings. -/
def skiptableEngine : Engine Skiptable where
  set env T key value := kvsSkiptableSet env T key.buf value.buf
  setWithTimestamp env T key value := kvsSkiptableSetWithTimestamp env T key.buf value.buf
  modify env T key value := kvsSkiptableModify env T key.buf value.buf
  modifyWithTimestamp _ T key value := kvsSkiptableModifyWithTimestamp T key.buf value.buf
  delete T key := kvsSkiptableDelete T key.buf
  get T key := kvsSkiptableGet T key.buf
  exist T key := kvsSkiptableExist T key.buf
  count := kvsSkiptableCount
  getTimestamp T key := kvsSkiptableGetTimestamp T key.buf

end KvStore
