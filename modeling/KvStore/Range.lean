import KvStore.Save
import Mathlib.Data.List.Sort

/-! Reading many entries at once: `kvs_*_get_all` and `kvs_*_range`. Both allocate an array of items (`kv_range.h`)
    and copy entries into it, the key first and then the value; a write behind the end of the array, or of the buffer
    for a string, is a fault. They return a code and the items. -/

namespace KvStore

/-- `kvs_item_t`, with the copies of the strings. -/
structure KvsItem where
  key : CString
  value : CString
  timestamp : UInt64
deriving DecidableEq

/-- What a copying loop has done so far: it goes on with the items, or it failed with a code. -/
abbrev Copied := Except Int (List KvsItem)

/-- The copy of a string into a buffer for its bytes and the terminator. Before it `memset` clears as many bytes of the
    buffer as `cleared` says; beyond the end of the buffer that is a fault. -/
def copyString (cleared : CString → Nat) (s : CString) : Option CString :=
  if cleared s ≤ s.strlen + 1 then some s else none

/-- `memset(copy, 0, strlen(s) + 1)`: what the array clears. -/
def clearString (s : CString) : Nat := s.strlen + 1

/-- `memset(copy, 0, sizeof(copy))`: the tree and the hash table clear as many bytes as a pointer has. -/
def clearPointer (_ : CString) : Nat := 8

/-- The skip list clears nothing. -/
def clearNothing (_ : CString) : Nat := 0

/-- The copy of one entry behind `items`, into an array for `size` items. The allocations for it are those after
    `used` and two for each item; `err` is the code when that of the key fails, `errValue` when that of the value. -/
def copyItem (cleared : CString → Nat) (env : Env) (used : Nat) (err errValue : Int) (size : Int)
    (items : List KvsItem) (key : CString) (value : CharPtr) (timestamp : UInt64) : Option Copied :=
  if size ≤ items.length then none
  else if env.alloc (used + 2 * items.length) = false then some (.error err)
  else do
    let key ← copyString cleared key
    let value ← value.deref
    if env.alloc (used + 2 * items.length + 1) = false then some (.error errValue)
    else do
      let value ← copyString cleared value
      some (.ok (items ++ [⟨key, value, timestamp⟩]))

/-- `strcmp(key, start_key) >= 0 && strcmp(key, end_key) <= 0` -/
def inRange (startKey endKey key : CString) : Bool := strcmp key startKey ≥ 0 ∧ strcmp key endKey ≤ 0

/-- `qsort` with `compare_kvs_items`. -/
def sortItems (items : List KvsItem) : List KvsItem := items.mergeSort fun a b => strcmp a.key b.key ≤ 0

/-- The code of a copying loop that was left with `goto out`, or 0 with the items. -/
def finishItems : Copied → Int × List KvsItem
  | .error code => (code, [])
  | .ok items => (0, items)

/-! ### The array -/

/-- The loop over `n` slots from slot `i` on, which copies the entries that `p` selects. -/
def arrayCopyLoop (copy : List KvsItem → CString → CharPtr → UInt64 → Option Copied) (p : CString → Bool)
    (T : KvArray) : Nat → Nat → List KvsItem → Option Copied
  | 0, _, items => some (.ok items)
  | n + 1, i, items => do
    let item ← T.item i
    match item.key with
    | .null => arrayCopyLoop copy p T n (i + 1) items
    | .freed => none
    | .str key =>
      if p key then
        match ← copy items key item.value item.timestamp with
        | .error code => some (.error code)
        | .ok items => arrayCopyLoop copy p T n (i + 1) items
      else arrayCopyLoop copy p T n (i + 1) items

def kvsArrayGetAll (env : Env) (T : KvArray) : Option (Int × List KvsItem) :=
  if T.total = 0 then some (0, [])
  else if env.alloc 0 = false then some (-2, [])
  else (arrayCopyLoop (copyItem clearString env 1 (-1) (-1) T.total) (fun _ => true) T T.total 0 []).map finishItems

/-- The loop of `kvs_array_range` that counts the matches. -/
def arrayMatchLoop (p : CString → Bool) (T : KvArray) : Nat → Nat → Nat → Option Nat
  | 0, _, count => some count
  | n + 1, i, count => do
    let item ← T.item i
    match item.key with
    | .null => arrayMatchLoop p T n (i + 1) count
    | .freed => none
    | .str key => arrayMatchLoop p T n (i + 1) (if p key then count + 1 else count)

def kvsArrayRange (env : Env) (T : KvArray) (startKey endKey : CString) : Option (Int × List KvsItem) :=
  if strcmp startKey endKey > 0 then some (-2, [])
  else do
    let matchCount ← arrayMatchLoop (inRange startKey endKey) T T.total 0 0
    if matchCount = 0 then some (1, [])
    else if env.alloc 0 = false then some (-3, [])
    else do
      let copied ← arrayCopyLoop (copyItem clearString env 1 (-4) (-5) matchCount) (inRange startKey endKey) T
        T.total 0 []
      some (finishItems (copied.map sortItems))

/-! ### The red-black tree -/

/-- The loop along the successors from `current` on, for at most `n` items; it stops at a key that `stop` selects. -/
def rbtreeCopyLoop (copy : List KvsItem → CString → CharPtr → UInt64 → Option Copied) (stop : CString → Bool)
    (T : Rbtree) : Nat → Ptr → List KvsItem → Option Copied
  | 0, _, items => some (.ok items)
  | n + 1, current, items =>
    if current = T.nil then some (.ok items)
    else do
      let key ← T.key current
      if stop key then some (.ok items)
      else do
        let value ← T.value current
        let timestamp ← T.timestamp current
        match ← copy items key value timestamp with
        | .error code => some (.error code)
        | .ok items => do
          let next ← rbtreeSuccessor T current
          rbtreeCopyLoop copy stop T n next items

/-- `kvs_rbtree_get_all`; it reports `match_count` items, so that copying fewer of them is a fault. -/
def kvsRbtreeGetAll (env : Env) (T : Rbtree) : Option (Int × List KvsItem) := do
  let matchCount ← kvsRbtreeCount T
  if matchCount = 0 then some (0, [])
  else if env.alloc 0 = false then some (-2, [])
  else do
    let current ← rbtreeMini T T.root
    match ← rbtreeCopyLoop (copyItem clearPointer env 1 (-3) (-4) matchCount) (fun _ => false) T matchCount.toNat
      current [] with
    | .error code => some (code, [])
    | .ok items => if items.length < matchCount then none else some (0, items)

/-- The descent to the first key that is not smaller than `startKey`. -/
def rbtreeStartLoop (T : Rbtree) (startKey : CString) : Nat → Ptr → Ptr → Option Ptr
  | 0, _, _ => none
  | fuel + 1, current, startNode =>
    if current ≠ T.nil then do
      let key ← T.key current
      if strcmp key startKey ≥ 0 then do
        let l ← T.left current
        rbtreeStartLoop T startKey fuel l current
      else do
        let r ← T.right current
        rbtreeStartLoop T startKey fuel r startNode
    else some startNode

/-- The walk that counts the nodes up to `endKey`. -/
def rbtreeMatchLoop (T : Rbtree) (endKey : CString) : Nat → Ptr → Nat → Option Nat
  | 0, _, _ => none
  | fuel + 1, current, matchCount =>
    if current ≠ T.nil then do
      let key ← T.key current
      if strcmp key endKey ≤ 0 then do
        let next ← rbtreeSuccessor T current
        rbtreeMatchLoop T endKey fuel next (matchCount + 1)
      else some matchCount
    else some matchCount

def kvsRbtreeRange (env : Env) (T : Rbtree) (startKey endKey : CString) : Option (Int × List KvsItem) :=
  if strcmp startKey endKey > 0 then some (-2, [])
  else do
    let startNode ← rbtreeStartLoop T startKey T.fuel T.root T.nil
    if startNode = T.nil then some (1, [])
    else do
      let matchCount ← rbtreeMatchLoop T endKey T.fuel startNode 0
      if matchCount = 0 then some (2, [])
      else if env.alloc 0 = false then some (-1, [])
      else do
        let copied ← rbtreeCopyLoop (copyItem clearPointer env 1 (-2) (-3) matchCount)
          (fun key => strcmp key endKey > 0) T matchCount startNode []
        some (finishItems copied)

/-! ### The hash table -/

/-- The nodes in the order of the two nested loops over the slots and the chains. -/
def Hash.nodes (H : Hash) : List HashNode := (List.range H.maxSlots.toNat).flatMap H.table

/-- The loop that copies nodes. -/
def hashCopyLoop (copy : List KvsItem → CString → CharPtr → UInt64 → Option Copied) :
    List HashNode → List KvsItem → Option Copied
  | [], items => some (.ok items)
  | node :: nodes, items => do
    match ← copy items node.key node.value node.timestamp with
    | .error code => some (.error code)
    | .ok items => hashCopyLoop copy nodes items

def kvsHashGetAll (env : Env) (H : Hash) : Option (Int × List KvsItem) := do
  let totalCount ← kvsHashCount H
  if totalCount = 0 then some (0, [])
  else if env.alloc 0 = false then some (-2, [])
  else (hashCopyLoop (copyItem clearPointer env 1 (-3) (-4) totalCount) H.nodes []).map finishItems

/-- `kvs_hash_range`; the matches are collected in an array for `total_count` pointers first. -/
def kvsHashRange (env : Env) (H : Hash) (startKey endKey : CString) : Option (Int × List KvsItem) :=
  if strcmp startKey endKey > 0 then some (-2, [])
  else do
    let totalCount ← kvsHashCount H
    if env.alloc 0 = false ∧ 0 < totalCount then some (-3, [])
    else
      let matched := H.nodes.filter fun node => inRange startKey endKey node.key
      if totalCount < matched.length then none
      else if matched = [] then some (1, [])
      else if env.alloc 1 = false then some (-4, [])
      else do
        let copied ← hashCopyLoop (copyItem clearPointer env 2 (-5) (-6) matched.length) matched []
        some (finishItems (copied.map sortItems))

/-! ### The skip list -/

/-- The loop along level 0 from `current` on, which copies the entries that `p` selects and ends behind a key that
    `stop` selects. -/
def skipCopyLoop (copy : List KvsItem → CString → CharPtr → UInt64 → Option Copied) (p stop : CString → Bool)
    (T : Skiptable) : Nat → Ptr → List KvsItem → Option Copied
  | 0, _, _ => none
  | fuel + 1, current, items =>
    if current = 0 then some (.ok items)
    else do
      let node ← T.nodes current
      let copied ← (if p node.key then do
          let timestamp ← node.timestamp
          copy items node.key (.str node.value) timestamp
        else some (.ok items))
      match copied with
      | .error code => some (.error code)
      | .ok items =>
        if stop node.key then some (.ok items)
        else do
          let next ← T.forward current 0
          skipCopyLoop copy p stop T fuel next items

def kvsSkiptableGetAll (env : Env) (T : Skiptable) : Option (Int × List KvsItem) := do
  let totalCount ← kvsSkiptableCount T
  if totalCount = 0 then some (0, [])
  else if env.alloc 0 = false then some (-2, [])
  else do
    let current ← T.forward T.header 0
    let copied ← skipCopyLoop (copyItem clearNothing env 1 (-3) (-4) totalCount) (fun _ => true) (fun _ => false) T
      T.fuel current []
    some (finishItems copied)

def kvsSkiptableRange (env : Env) (T : Skiptable) (startKey endKey : CString) : Option (Int × List KvsItem) :=
  if strcmp startKey endKey > 0 then some (-2, [])
  else if env.alloc 0 = false then some (-3, [])
  else do
    let current ← T.forward T.header 0
    let copied ← skipCopyLoop (copyItem clearNothing env 1 (-1) (-1) T.size) (inRange startKey endKey)
      (fun key => strcmp key endKey > 0) T T.fuel current []
    match copied with
    | .error code => some (code, [])
    | .ok items => if items = [] then some (1, []) else some (0, items)

/-- The functions of an engine that read many entries. -/
structure Scan (σ : Type) where
  getAll : Env → σ → Option (Int × List KvsItem)
  range : Env → σ → CString → CString → Option (Int × List KvsItem)

def arrayScan : Scan KvArray := ⟨kvsArrayGetAll, kvsArrayRange⟩

def rbtreeScan : Scan Rbtree := ⟨kvsRbtreeGetAll, kvsRbtreeRange⟩

def hashScan : Scan Hash := ⟨kvsHashGetAll, kvsHashRange⟩

def skiptableScan : Scan Skiptable := ⟨kvsSkiptableGetAll, kvsSkiptableRange⟩

end KvStore
