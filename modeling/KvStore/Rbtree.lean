import KvStore.Engine
import KvStore.Lib.RedBlack

/-! The red-black tree engine, `kv_store_rbtree.c`. Nodes live in a memory that is read and written through
    pointers; a field that was never written is `none`, and reading it is a fault, as is following a pointer
    that is not allocated. Every loop runs on fuel: it follows links between distinct nodes, so as many rounds
    as there are addresses are enough, and running out is a fault as well.

    The two sides of the mirrored functions are one definition with a `Side`. -/

namespace KvStore
open RedBlack (Side Color)

structure RbtreeNode where
  color : Option Color
  right : Option Ptr
  left : Option Ptr
  parent : Option Ptr
  key : Option CString
  value : Option CharPtr
  timestamp : Option UInt64

/-- A node as `kvs_malloc` returns it. -/
def RbtreeNode.fresh : RbtreeNode := ⟨none, none, none, none, none, none, none⟩

/-- The tree and the memory it lives in; `next` is the first address never handed out. -/
structure Rbtree where
  root : Ptr
  nil : Ptr
  mem : Ptr → Option RbtreeNode
  next : Ptr

namespace Rbtree

def color (T : Rbtree) (p : Ptr) : Option Color := T.mem p >>= (·.color)
def right (T : Rbtree) (p : Ptr) : Option Ptr := T.mem p >>= (·.right)
def left (T : Rbtree) (p : Ptr) : Option Ptr := T.mem p >>= (·.left)
def parent (T : Rbtree) (p : Ptr) : Option Ptr := T.mem p >>= (·.parent)
def key (T : Rbtree) (p : Ptr) : Option CString := T.mem p >>= (·.key)
def value (T : Rbtree) (p : Ptr) : Option CharPtr := T.mem p >>= (·.value)
def timestamp (T : Rbtree) (p : Ptr) : Option UInt64 := T.mem p >>= (·.timestamp)

def child (T : Rbtree) : Side → Ptr → Option Ptr
  | .left, p => T.left p
  | .right, p => T.right p

/-- The memory with the node `n` at the address `p`. -/
def put (T : Rbtree) (p : Ptr) (n : RbtreeNode) : Rbtree :=
  { T with mem := fun q => if q = p then some n else T.mem q }

/-- A write to fields of the node at `p`. -/
def update (T : Rbtree) (p : Ptr) (f : RbtreeNode → RbtreeNode) : Option Rbtree :=
  (T.mem p).map fun n => T.put p (f n)

def setColor (T : Rbtree) (p : Ptr) (c : Color) : Option Rbtree := T.update p fun n => { n with color := some c }
def setRight (T : Rbtree) (p q : Ptr) : Option Rbtree := T.update p fun n => { n with right := some q }
def setLeft (T : Rbtree) (p q : Ptr) : Option Rbtree := T.update p fun n => { n with left := some q }
def setParent (T : Rbtree) (p q : Ptr) : Option Rbtree := T.update p fun n => { n with parent := some q }
def setKey (T : Rbtree) (p : Ptr) (k : CString) : Option Rbtree := T.update p fun n => { n with key := some k }
def setValue (T : Rbtree) (p : Ptr) (v : CharPtr) : Option Rbtree := T.update p fun n => { n with value := some v }
def setTimestamp (T : Rbtree) (p : Ptr) (t : UInt64) : Option Rbtree :=
  T.update p fun n => { n with timestamp := some t }

def setChild (T : Rbtree) : Side → Ptr → Ptr → Option Rbtree
  | .left, p, q => T.setLeft p q
  | .right, p, q => T.setRight p q

/-- `kvs_malloc(sizeof(rbtree_node))` -/
def malloc (T : Rbtree) : Rbtree × Ptr := ({ T.put T.next .fresh with next := T.next + 1 }, T.next)

/-- `kvs_free` -/
def free (T : Rbtree) (p : Ptr) : Rbtree := { T with mem := fun q => if q = p then none else T.mem q }

/-- More rounds than any walk over distinct nodes takes. -/
def fuel (T : Rbtree) : Nat := T.next + 1

end Rbtree

/-! ### Walks -/

def rbtreeMiniLoop (T : Rbtree) : Nat → Ptr → Option Ptr
  | 0, _ => none
  | fuel + 1, x => do
    let l ← T.left x
    if l ≠ T.nil then rbtreeMiniLoop T fuel l else some x

/-- `rbtree_mini` -/
def rbtreeMini (T : Rbtree) (x : Ptr) : Option Ptr := rbtreeMiniLoop T T.fuel x

def rbtreeSuccessorLoop (T : Rbtree) : Nat → Ptr → Ptr → Option Ptr
  | 0, _, _ => none
  | fuel + 1, x, y =>
    if y = T.nil then some y
    else do
      let r ← T.right y
      if x = r then
        let p ← T.parent y
        rbtreeSuccessorLoop T fuel y p
      else some y

/-- `rbtree_successor` -/
def rbtreeSuccessor (T : Rbtree) (x : Ptr) : Option Ptr := do
  let y ← T.parent x
  let r ← T.right x
  if r ≠ T.nil then rbtreeMini T r else rbtreeSuccessorLoop T T.fuel x y

/-! ### Rotations -/

/-- Makes the link from the node `p` to `old`, or the root pointer when `p` is the sentinel, point to
    `new`; the child on side `s` is compared first. -/
def Rbtree.replaceChild (T : Rbtree) (s : Side) (p old new : Ptr) : Option Rbtree :=
  if p = T.nil then some { T with root := new }
  else do
    let c ← T.child s p
    if old = c then T.setChild s p new else T.setChild s.other p new

/-- The rotation at `x` towards side `s`: the child on the other side comes up. -/
def rbtreeRotate (s : Side) (T : Rbtree) (x : Ptr) : Option Rbtree := do
  let y ← T.child s.other x
  let b ← T.child s y
  let T ← T.setChild s.other x b
  let T ← (if b ≠ T.nil then T.setParent b x else some T)
  let p ← T.parent x
  let T ← T.setParent y p
  let T ← T.replaceChild s p x y
  let T ← T.setChild s y x
  T.setParent x y

/-- `rbtree_left_rotate` -/
def rbtreeLeftRotate : Rbtree → Ptr → Option Rbtree := rbtreeRotate .left

/-- `rbtree_right_rotate` -/
def rbtreeRightRotate : Rbtree → Ptr → Option Rbtree := rbtreeRotate .right

/-! ### Insertion -/

/-- The end of the body of the loop of `rbtree_insert_fixup`: `z` lies outside its parent. -/
def rbtreeInsertFixupOuter (s : Side) (T : Rbtree) (z : Ptr) : Option Rbtree := do
  let p ← T.parent z
  let T ← T.setColor p .black
  let g ← T.parent p
  let T ← T.setColor g .red
  rbtreeRotate s.other T g

/-- The body of the loop of `rbtree_insert_fixup` for a parent on side `s`: the tree and the node to go on
    with. -/
def rbtreeInsertFixupSide (s : Side) (T : Rbtree) (z : Ptr) : Option (Rbtree × Ptr) := do
  let p ← T.parent z
  let g ← T.parent p
  let y ← T.child s.other g
  let c ← T.color y
  if c = .red then
    let T ← T.setColor p .black
    let T ← T.setColor y .black
    let T ← T.setColor g .red
    some (T, g)
  else do
    let r ← T.child s.other p
    let (T, z) ← (if z = r then (rbtreeRotate s T p).map (·, p) else some (T, z))
    let T ← rbtreeInsertFixupOuter s T z
    some (T, z)

def rbtreeInsertFixupLoop : Nat → Rbtree → Ptr → Option Rbtree
  | 0, _, _ => none
  | fuel + 1, T, z => do
    let p ← T.parent z
    let c ← T.color p
    if c = .red then
      let g ← T.parent p
      let l ← T.left g
      let (T, z) ← rbtreeInsertFixupSide (if p = l then .left else .right) T z
      rbtreeInsertFixupLoop fuel T z
    else some T

/-- `rbtree_insert_fixup` -/
def rbtreeInsertFixup (T : Rbtree) (z : Ptr) : Option Rbtree := do
  let T ← rbtreeInsertFixupLoop T.fuel T z
  T.setColor T.root .black

/-- The descent of `rbtree_insert`: the node under which the key belongs, or nothing when the key is there. -/
def rbtreeInsertLoop (T : Rbtree) (key : CString) : Nat → Ptr → Ptr → Option (Option Ptr)
  | 0, _, _ => none
  | fuel + 1, x, y =>
    if x ≠ T.nil then do
      let k ← T.key x
      if strcmp key k < 0 then
        let l ← T.left x
        rbtreeInsertLoop T key fuel l x
      else if strcmp key k > 0 then
        let r ← T.right x
        rbtreeInsertLoop T key fuel r x
      else some none
    else some (some y)

/-- `rbtree_insert` -/
def rbtreeInsert (T : Rbtree) (z : Ptr) : Option Rbtree := do
  let k ← T.key z
  let y ← rbtreeInsertLoop T k T.fuel T.root T.nil
  match y with
  | none => some T
  | some y => do
    let T ← T.setParent z y
    let T ← (if y = T.nil then some { T with root := z }
      else do
        let ky ← T.key y
        if strcmp k ky < 0 then T.setLeft y z else T.setRight y z)
    let T ← T.setLeft z T.nil
    let T ← T.setRight z T.nil
    let T ← T.setColor z .red
    rbtreeInsertFixup T z

/-! ### Deletion -/

/-- The last case of the loop of `rbtree_delete_fixup`: the child of `w` away from `x` is red. -/
def rbtreeDeleteFixupFar (s : Side) (T : Rbtree) (x w : Ptr) : Option (Rbtree × Ptr) := do
  let p ← T.parent x
  let cp ← T.color p
  let T ← T.setColor w cp
  let T ← T.setColor p .black
  let far ← T.child s.other w
  let T ← T.setColor far .black
  let T ← rbtreeRotate s T p
  some (T, T.root)

/-- The body of the loop from the test of the children of `w` on, where `w` is the black sibling of `x`. -/
def rbtreeDeleteFixupBlack (s : Side) (T : Rbtree) (x w : Ptr) : Option (Rbtree × Ptr) := do
  let l ← T.left w
  let cl ← T.color l
  let r ← T.right w
  let cr ← T.color r
  if cl = .black ∧ cr = .black then
    let T ← T.setColor w .red
    let p ← T.parent x
    some (T, p)
  else do
    let far ← T.child s.other w
    let cf ← T.color far
    if cf = .black then
      let near ← T.child s w
      let T ← T.setColor near .black
      let T ← T.setColor w .red
      let T ← rbtreeRotate s.other T w
      let p ← T.parent x
      let w ← T.child s.other p
      rbtreeDeleteFixupFar s T x w
    else rbtreeDeleteFixupFar s T x w

/-- The body of the loop of `rbtree_delete_fixup` for `x` on side `s` of its parent. -/
def rbtreeDeleteFixupSide (s : Side) (T : Rbtree) (x : Ptr) : Option (Rbtree × Ptr) := do
  let p ← T.parent x
  let w ← T.child s.other p
  let c ← T.color w
  if c = .red then
    let T ← T.setColor w .black
    let T ← T.setColor p .red
    let T ← rbtreeRotate s T p
    let p ← T.parent x
    let w ← T.child s.other p
    rbtreeDeleteFixupBlack s T x w
  else rbtreeDeleteFixupBlack s T x w

def rbtreeDeleteFixupLoop : Nat → Rbtree → Ptr → Option (Rbtree × Ptr)
  | 0, _, _ => none
  | fuel + 1, T, x =>
    if x ≠ T.root then do
      let c ← T.color x
      if c = .black then
        let p ← T.parent x
        let l ← T.left p
        let (T, x) ← rbtreeDeleteFixupSide (if x = l then .left else .right) T x
        rbtreeDeleteFixupLoop fuel T x
      else some (T, x)
    else some (T, x)

/-- `rbtree_delete_fixup` -/
def rbtreeDeleteFixup (T : Rbtree) (x : Ptr) : Option Rbtree := do
  let (T, x) ← rbtreeDeleteFixupLoop T.fuel T x
  T.setColor x .black

/-- The exchange of keys and values between `z` and its successor `y`; the timestamps stay where they are. -/
def Rbtree.swapEntry (T : Rbtree) (z y : Ptr) : Option Rbtree := do
  let kz ← T.key z
  let ky ← T.key y
  let T ← T.setKey z ky
  let T ← T.setKey y kz
  let vz ← T.value z
  let vy ← T.value y
  let T ← T.setValue z vy
  T.setValue y vz

/-- `rbtree_delete`: takes the key of `z` out of the tree and returns the node that left it, which for a
    node with two children is its successor. -/
def rbtreeDelete (T : Rbtree) (z : Ptr) : Option (Rbtree × Ptr) := do
  let l ← T.left z
  let r ← T.right z
  let y ← (if l = T.nil ∨ r = T.nil then some z else rbtreeSuccessor T z)
  let ly ← T.left y
  let x ← (if ly ≠ T.nil then some ly
    else do
      let ry ← T.right y
      some (if ry ≠ T.nil then ry else T.nil))
  let p ← T.parent y
  let T ← T.setParent x p
  let T ← T.replaceChild .left p y x
  let T ← (if y ≠ z then T.swapEntry z y else some T)
  let c ← T.color y
  let T ← (if c = .black then rbtreeDeleteFixup T x else some T)
  some (T, y)

/-! ### The calls -/

def rbtreeSearchLoop (T : Rbtree) (key : CString) : Nat → Ptr → Option Ptr
  | 0, _ => none
  | fuel + 1, node =>
    if node ≠ T.nil then do
      let k ← T.key node
      if strcmp key k < 0 then
        let l ← T.left node
        rbtreeSearchLoop T key fuel l
      else if strcmp key k > 0 then
        let r ← T.right node
        rbtreeSearchLoop T key fuel r
      else some node
    else some T.nil

/-- `rbtree_search` -/
def rbtreeSearch (T : Rbtree) (key : CString) : Option Ptr := rbtreeSearchLoop T key T.fuel T.root

/-- `kvs_rbtree_create` when its allocation succeeds; only the color of the sentinel is written. -/
def kvsRbtreeCreate : Rbtree where
  root := 1
  nil := 1
  mem p := if p = 1 then some { RbtreeNode.fresh with color := some .black } else none
  next := 2

/-- `kvs_rbtree_get` -/
def kvsRbtreeGet (T : Rbtree) (key : CString) : Option CharPtr := do
  let node ← rbtreeSearch T key
  if node = T.nil then some .null else T.value node

/-- `kvs_rbtree_set_with_timestamp`; the first allocation is used without a check. -/
def kvsRbtreeSetWithTimestamp (env : Env) (T : Rbtree) (key value : CString) (timestamp : UInt64) :
    Option (Rbtree × Int) := do
  let oldValue ← kvsRbtreeGet T key
  if oldValue ≠ .null then some (T, 1)
  else if env.alloc 0 = false then none
  else
    let (T, node) := T.malloc
    if env.alloc 1 = false then some (T, -2)
    else do
      let T ← T.setKey node key
      if env.alloc 2 = false then some (T, -3)
      else do
        let T ← T.setValue node (.str value)
        let T ← T.setTimestamp node timestamp
        let T ← rbtreeInsert T node
        some (T, 0)

/-- `kvs_rbtree_set` -/
def kvsRbtreeSet (env : Env) (T : Rbtree) (key value : CString) : Option (Rbtree × Int) :=
  kvsRbtreeSetWithTimestamp env T key value env.now

/-- `kvs_rbtree_delete` -/
def kvsRbtreeDelete (T : Rbtree) (key : CString) : Option (Rbtree × Int) := do
  let node ← rbtreeSearch T key
  if node = T.nil then some (T, -2)
  else do
    let (T, cur) ← rbtreeDelete T node
    let _ ← T.key cur
    let _ ← T.value cur
    some (T.free cur, 0)

/-- `kvs_rbtree_modify_with_timestamp`; the old value is freed before the new one is allocated. -/
def kvsRbtreeModifyWithTimestamp (env : Env) (T : Rbtree) (key value : CString) (timestamp : UInt64) :
    Option (Rbtree × Int) := do
  let node ← rbtreeSearch T key
  if node = T.nil then some (T, -2)
  else do
    let _ ← T.value node
    if env.alloc 0 = false then
      let T ← T.setValue node .null
      some (T, -3)
    else do
      let T ← T.setValue node (.str value)
      let T ← T.setTimestamp node timestamp
      some (T, 0)

/-- `kvs_rbtree_modify` -/
def kvsRbtreeModify (env : Env) (T : Rbtree) (key value : CString) : Option (Rbtree × Int) :=
  kvsRbtreeModifyWithTimestamp env T key value env.now

/-- `kvs_rbtree_exist` -/
def kvsRbtreeExist (T : Rbtree) (key : CString) : Option Int := do
  let node ← rbtreeSearch T key
  if node = T.nil then some (-2) else some 0

/-- `count_nodes_recursive` -/
def countNodesRecursive (T : Rbtree) : Nat → Ptr → Option Int
  | 0, _ => none
  | fuel + 1, node =>
    if node = T.nil then some 0
    else do
      let l ← T.left node
      let nl ← countNodesRecursive T fuel l
      let r ← T.right node
      let nr ← countNodesRecursive T fuel r
      some (1 + nl + nr)

/-- `kvs_rbtree_count` -/
def kvsRbtreeCount (T : Rbtree) : Option Int := countNodesRecursive T T.fuel T.root

/-- `kvs_rbtree_get_timestamp`; the search never returns a null pointer, so a missing key reads the sentinel. -/
def kvsRbtreeGetTimestamp (T : Rbtree) (key : CString) : Option UInt64 := do
  let node ← rbtreeSearch T key
  T.timestamp node

def rbtreeEngine : Engine Rbtree where
  set := kvsRbtreeSet
  setWithTimestamp := kvsRbtreeSetWithTimestamp
  modify := kvsRbtreeModify
  modifyWithTimestamp := kvsRbtreeModifyWithTimestamp
  delete := kvsRbtreeDelete
  get := kvsRbtreeGet
  exist := kvsRbtreeExist
  count := kvsRbtreeCount
  getTimestamp := kvsRbtreeGetTimestamp

end KvStore
