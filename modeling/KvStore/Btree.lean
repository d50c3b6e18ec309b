import Mathlib.Data.List.Basic
import Mathlib.Logic.Function.Basic

/-! The B-tree of `btree.c`: `Btree.nodeSet` is `btree_node_set`, and so on. A node keeps its items in order, and a
    branch has one child more than it has items. Reading behind the items or the children of a node is a fault, and so
    is writing more of them than a node has slots for.

    A node has one owner here: no tree has been cloned, and no callback copies or frees an item. -/

namespace KvStore

/-- `struct btree_node` -/
inductive Btree.Node (α : Type) where
  | leaf (items : List α)
  | branch (items : List α) (children : List (Node α))

/-- `struct btree`, without what only `btree_new` sets. -/
structure Btree (α : Type) where
  root : Option (Btree.Node α)
  count : Nat
  height : Nat
  oom : Bool

namespace Btree

/-- What `btree_new` sets: the comparison, and the most items of a node. -/
structure Settings (α : Type) where
  compare : α → α → Ordering
  maxItems : Nat

/-- The fewest items of a node that is not the root. -/
def Settings.minItems {α : Type} (b : Settings α) : Nat := b.maxItems / 2

/-- The `max_items` that `btree_new` makes of its argument. -/
def normalizeMaxItems (maxItems : Nat) : Nat :=
  let deg := maxItems / 2
  let deg := if deg = 0 then 128 else if deg = 1 then 2 else deg
  if deg * 2 - 1 > 2045 then 2045 else deg * 2 - 1

/-- `btree_new` -/
def new {α : Type} : Btree α := ⟨none, 0, 0, false⟩

/-- The eight bytes of a path hint. -/
abbrev Hint := Fin 8 → UInt8

/-- `enum btree_mut_result`, with the item that goes to the caller. -/
inductive MutResult (α : Type) where
  | noChange
  | noMem
  | mustSplit
  | inserted
  | replaced (prev : α)
  | deleted (prev : α)

/-- `enum btree_delact`, with the key of `BTREE_DELKEY`. -/
inductive DelAct (α : Type) where
  | delKey (key : α)
  | popFront
  | popBack
  | popMax

/-- What a call carries through the tree: the hint of its caller, and how many allocations it has made. -/
structure Pass where
  hint : Option Hint
  mallocs : Nat

variable {α : Type}

namespace Node

def items : Node α → List α
  | leaf items => items
  | branch items _ => items

def nitems (node : Node α) : Nat := node.items.length

def isLeaf : Node α → Bool
  | leaf _ => true
  | branch .. => false

end Node

/-! ### Searching a node -/

section Search
variable (compare : α → α → Ordering) (items : List α) (key : α)

/-- The loop of `btree_node_bsearch`. -/
def bsearchLoop : Nat → Nat → Nat → Option (Nat × Bool)
  | 0, i, n => if i < n then none else some (i, false)
  | fuel + 1, i, n =>
    if i < n then do
      let j := (i + n) / 2
      let item ← items[j]?
      match compare key item with
      | .eq => some (j, true)
      | .lt => bsearchLoop fuel i j
      | .gt => bsearchLoop fuel (j + 1) n
    else some (i, false)

def bsearch : Option (Nat × Bool) := bsearchLoop compare items key items.length 0 items.length

/-- The loop of `btree_node_bsearch_hint`. -/
def bsearchHintLoop : Nat → Int → Int → Option (Nat × Bool)
  | 0, low, high => if low ≤ high then none else some (low.toNat, false)
  | fuel + 1, low, high =>
    if low ≤ high then do
      let mid := (low + high) / 2
      let item ← items[mid.toNat]?
      match compare key item with
      | .eq => some (mid.toNat, true)
      | .lt => bsearchHintLoop fuel low (mid - 1)
      | .gt => bsearchHintLoop fuel (mid + 1) high
    else some (low.toNat, false)

/-- The comparison with the item that the hint points to: the place of the key, or the range that is left. -/
def probe (index : Nat) : Option (Nat ⊕ Int × Int) :=
  if 0 < index then do
    let index := min index (items.length - 1)
    let item ← items[index]?
    match compare key item with
    | .eq => some (.inl index)
    | .gt => some (.inr (index + 1, items.length - 1))
    | .lt => some (.inr (0, index - 1))
  else some (.inr (0, items.length - 1))

/-- `btree_node_bsearch_hint` with a hint. A hint that points to the key stays as it is. -/
def bsearchHint (hint : Hint) (depth : Nat) : Option (Nat × Bool × Hint) :=
  if h : depth < 8 then do
    match ← probe compare items key (hint ⟨depth, h⟩).toNat with
    | .inl index => some (index, true, hint)
    | .inr (low, high) =>
      let (index, found) ← bsearchHintLoop compare items key items.length low high
      some (index, found, Function.update hint ⟨depth, h⟩ (UInt8.ofNat index))
  else do
    let (index, found) ← bsearchHintLoop compare items key items.length 0 (items.length - 1)
    some (index, found, hint)

/-- `btree_search`, where no searcher has been set. -/
def search (hint : Option Hint) (depth : Nat) : Option (Nat × Bool × Option Hint) :=
  match hint with
  | none => do
    let (i, found) ← bsearch compare items key
    some (i, found, none)
  | some hint => do
    let (i, found, hint) ← bsearchHint compare items key hint depth
    some (i, found, some hint)

end Search

section Operations
variable (b : Settings α)

/-- `btree_node_shift_right` and `btree_set_item_at` on the slots of a node. -/
def insertItem (items : List α) (index : Nat) (item : α) : Option (List α) :=
  if items.length < b.maxItems ∧ index ≤ items.length then some (items.insertIdx index item) else none

/-! ### Setting an item -/

/-- `btree_node_split`: the node, the median and the new right node. -/
def nodeSplit (node : Node α) : Option (Node α × α × Node α) := do
  let mid := b.maxItems / 2
  let median ← node.items[mid]?
  match node with
  | .leaf items => some (.leaf (items.take mid), median, .leaf (items.drop (mid + 1)))
  | .branch items children =>
    some (.branch (items.take mid) (children.take (mid + 1)), median,
      .branch (items.drop (mid + 1)) (children.drop (mid + 1)))

variable (malloc : Nat → Bool)

/-- `btree_node_set` -/
def nodeSet : Nat → Node α → α → Nat → Pass → Option (MutResult α × Node α × Pass)
  | 0, _, _, _, _ => none
  | _ + 1, .leaf items, item, depth, p => do
    let (i, found, hint) ← search b.compare items item p.hint depth
    if found then
      let prev ← items[i]?
      some (.replaced prev, .leaf (items.set i item), ⟨hint, p.mallocs⟩)
    else if items.length = b.maxItems then some (.mustSplit, .leaf items, ⟨hint, p.mallocs⟩)
    else
      let items ← insertItem b items i item
      some (.inserted, .leaf items, ⟨hint, p.mallocs⟩)
  | fuel + 1, .branch items children, item, depth, p => do
    let (i, found, hint) ← search b.compare items item p.hint depth
    if found then
      let prev ← items[i]?
      some (.replaced prev, .branch (items.set i item) children, ⟨hint, p.mallocs⟩)
    else
      let child ← children[i]?
      let (result, child, p) ← nodeSet fuel child item (depth + 1) ⟨hint, p.mallocs⟩
      let children := children.set i child
      match result with
      | .mustSplit =>
        if items.length = b.maxItems then some (.mustSplit, .branch items children, p)
        else if malloc p.mallocs = false then some (.noMem, .branch items children, ⟨p.hint, p.mallocs + 1⟩)
        else
          let (left, median, right) ← nodeSplit b child
          let items ← insertItem b items i median
          nodeSet fuel (.branch items ((children.set i left).insertIdx (i + 1) right)) item depth
            ⟨p.hint, p.mallocs + 1⟩
      | result => some (result, .branch items children, p)

/-- More calls of `btree_node_set` than are ever nested. -/
def fuel (t : Btree α) : Nat := 2 * t.height + 2

/-- The rounds of `set:` in `btree_set0`. -/
def setLoop : Nat → Btree α → Node α → α → Pass → Option (Btree α × Option α × Option Hint)
  | 0, _, _, _, _ => none
  | rounds + 1, t, root, item, p => do
    let (result, root, p) ← nodeSet b malloc t.fuel root item 0 p
    let t := { t with root := some root }
    match result with
    | .replaced prev => some (t, some prev, p.hint)
    | .inserted => some ({ t with count := t.count + 1 }, none, p.hint)
    | .noMem => some ({ t with oom := true }, none, p.hint)
    | _ =>
      if malloc p.mallocs = false ∨ malloc (p.mallocs + 1) = false then some ({ t with oom := true }, none, p.hint)
      else
        let (left, median, right) ← nodeSplit b root
        let root := .branch [median] [left, right]
        setLoop rounds { t with root := some root, height := t.height + 1 } root item ⟨p.hint, p.mallocs + 2⟩

/-- `btree_set0` -/
def set0 (t : Btree α) (item : α) (hint : Option Hint) : Option (Btree α × Option α × Option Hint) :=
  let t := { t with oom := false }
  match t.root with
  | none =>
    if malloc 0 = false then some ({ t with oom := true }, none, hint)
    else some ({ t with root := some (.leaf [item]), count := t.count + 1, height := t.height + 1 }, none, hint)
  | some root => setLoop b malloc 2 t root item ⟨hint, 0⟩

/-- The loop of `btree_load`: the node with the item behind its last one, if the last leaf takes it there. -/
def loadLoop : Nat → Node α → α → Option (Option (Node α))
  | 0, _, _ => none
  | _ + 1, .leaf items, item => do
    if items.length = b.maxItems then some none
    else
      let litem ← items[items.length - 1]?
      if b.compare item litem ≠ .gt then some none
      else
        let items ← insertItem b items items.length item
        some (some (.leaf items))
  | fuel + 1, .branch items children, item => do
    let child ← children[items.length]?
    let child ← loadLoop fuel child item
    some (child.map fun child => .branch items (children.set items.length child))

/-- `btree_load` -/
def load (t : Btree α) (item : α) : Option (Btree α × Option α) := do
  let t := { t with oom := false }
  match t.root with
  | none =>
    let (t, prev, _) ← set0 b malloc t item none
    some (t, prev)
  | some root =>
    match ← loadLoop b t.height root item with
    | some root => some ({ t with root := some root, count := t.count + 1 }, none)
    | none =>
      let (t, prev, _) ← set0 b malloc t item none
      some (t, prev)

omit malloc

/-! ### Getting an item -/

/-- The loop of `btree_get0`. -/
def getLoop : Nat → Node α → α → Option Hint → Nat → Option (Option α × Option Hint)
  | 0, _, _, _, _ => none
  | _ + 1, .leaf items, key, hint, depth => do
    let (i, found, hint) ← search b.compare items key hint depth
    if found then
      let item ← items[i]?
      some (some item, hint)
    else some (none, hint)
  | fuel + 1, .branch items children, key, hint, depth => do
    let (i, found, hint) ← search b.compare items key hint depth
    if found then
      let item ← items[i]?
      some (some item, hint)
    else
      let child ← children[i]?
      getLoop fuel child key hint (depth + 1)

/-- `btree_get0` -/
def get0 (t : Btree α) (key : α) (hint : Option Hint) : Option (Option α × Option Hint) :=
  match t.root with
  | none => some (none, hint)
  | some root => getLoop b t.height root key hint 0

/-- The loop of `btree_min`. -/
def minLoop : Nat → Node α → Option α
  | 0, _ => none
  | _ + 1, .leaf items => items[0]?
  | fuel + 1, .branch _ children => do
    let child ← children[0]?
    minLoop fuel child

protected def min (t : Btree α) : Option (Option α) :=
  match t.root with
  | none => some none
  | some root => (minLoop t.height root).map some

/-- The loop of `btree_max`. -/
def maxLoop : Nat → Node α → Option α
  | 0, _ => none
  | _ + 1, .leaf items => items[items.length - 1]?
  | fuel + 1, .branch items children => do
    let child ← children[items.length]?
    maxLoop fuel child

protected def max (t : Btree α) : Option (Option α) :=
  match t.root with
  | none => some none
  | some root => (maxLoop t.height root).map some

/-! ### Deleting an item -/

/-- The merge of `btree_node_rebalance`: `btree_copy_item` and `btree_node_join`. -/
def nodeJoin (left : Node α) (item : α) (right : Node α) : Option (Node α) :=
  match left, right with
  | .leaf items, .leaf items' => some (.leaf (items ++ item :: items'))
  | .branch items children, .branch items' children' => some (.branch (items ++ item :: items') (children ++ children'))
  | _, _ => none

/-- The move of `btree_node_rebalance` from left to right: the left node, the item for the parent and the right node. -/
def moveRight (left : Node α) (item : α) (right : Node α) : Option (Node α × α × Node α) := do
  let last ← left.items[left.nitems - 1]?
  let items' ← insertItem b right.items 0 item
  match left, right with
  | .leaf items, .leaf _ => some (.leaf (items.eraseIdx (items.length - 1)), last, .leaf items')
  | .branch items children, .branch _ children' =>
    let child ← children[items.length]?
    some (.branch (items.eraseIdx (items.length - 1)) (children.eraseIdx items.length), last,
      .branch items' (child :: children'))
  | _, _ => none

/-- The move from right to left. -/
def moveLeft (left : Node α) (item : α) (right : Node α) : Option (Node α × α × Node α) := do
  let first ← right.items[0]?
  let items ← insertItem b left.items left.nitems item
  match left, right with
  | .leaf _, .leaf items' => some (.leaf items, first, .leaf (items'.eraseIdx 0))
  | .branch _ children, .branch items' children' =>
    let child ← children'[0]?
    some (.branch items (children ++ [child]), first, .branch (items'.eraseIdx 0) (children'.eraseIdx 0))
  | _, _ => none

/-- `btree_node_rebalance` -/
def nodeRebalance (items : List α) (children : List (Node α)) (i : Nat) : Option (Node α) := do
  let i := if i = items.length then i - 1 else i
  let left ← children[i]?
  let right ← children[i + 1]?
  let item ← items[i]?
  if left.nitems + right.nitems < b.maxItems then
    let left ← nodeJoin left item right
    some (.branch (items.eraseIdx i) ((children.set i left).eraseIdx (i + 1)))
  else
    let (left, item, right) ←
      (if left.nitems > right.nitems then moveRight b left item right else moveLeft b left item right)
    some (.branch (items.set i item) ((children.set i left).set (i + 1) right))

/-- Where `btree_node_delete` goes in a node. -/
def target (node : Node α) (act : DelAct α) (hint : Option Hint) (depth : Nat) : Option (Nat × Bool × Option Hint) :=
  match act with
  | .delKey key => search b.compare node.items key hint depth
  | .popMax => some (node.nitems - 1, true, hint)
  | .popFront => some (0, node.isLeaf, hint)
  | .popBack => if node.isLeaf then some (node.nitems - 1, true, hint) else some (node.nitems, false, hint)

/-- How `btree_node_delete` goes on in a branch: the child, what to do there, and the item found in the branch. -/
def route (items : List α) (children : List (Node α)) (act : DelAct α) (hint : Option Hint) (depth : Nat) :
    Option (Nat × DelAct α × Option α × Option Hint) := do
  let (i, found, hint) ← target b (.branch items children) act hint depth
  match found, act with
  | true, .popMax => some (i + 1, .popMax, none, hint)
  | true, _ => do
    let prev ← items[i]?
    some (i, .popMax, some prev, hint)
  | false, _ => some (i, act, none, hint)

/-- `btree_node_delete`. The greatest item below an item found in a branch takes its place. -/
def nodeDelete : Nat → Node α → DelAct α → Option Hint → Nat → Option (MutResult α × Node α × Option Hint)
  | 0, _, _, _, _ => none
  | _ + 1, .leaf items, act, hint, depth => do
    let (i, found, hint) ← target b (.leaf items) act hint depth
    if found then
      let prev ← items[i]?
      some (.deleted prev, .leaf (items.eraseIdx i), hint)
    else some (.noChange, .leaf items, hint)
  | fuel + 1, .branch items children, act, hint, depth => do
    let (i, below, found, hint) ← route b items children act hint depth
    let child ← children[i]?
    let _ ← children[if i = items.length then i - 1 else i + 1]?
    let (result, child, hint) ← nodeDelete fuel child below hint (depth + 1)
    let children := children.set i child
    match result, found with
    | .deleted popped, none => do
      let node ←
        (if child.nitems < b.minItems then nodeRebalance b items children i else some (.branch items children))
      some (.deleted popped, node, hint)
    | .deleted popped, some prev => do
      let items := items.set i popped
      let node ←
        (if child.nitems < b.minItems then nodeRebalance b items children i else some (.branch items children))
      some (.deleted prev, node, hint)
    | .noChange, none => some (.noChange, .branch items children, hint)
    | _, _ => none

/-- `btree_delete0` -/
def delete0 (t : Btree α) (act : DelAct α) (hint : Option Hint) : Option (Btree α × Option α × Option Hint) := do
  let t := { t with oom := false }
  match t.root with
  | none => some (t, none, hint)
  | some root =>
    let (result, root, hint) ← nodeDelete b t.height root act hint 0
    match result with
    | .deleted prev =>
      match root with
      | .leaf [] => some ({ t with root := none, count := t.count - 1, height := t.height - 1 }, some prev, hint)
      | .branch [] children =>
        let child ← children[0]?
        some ({ t with root := some child, count := t.count - 1, height := t.height - 1 }, some prev, hint)
      | root => some ({ t with root := some root, count := t.count - 1 }, some prev, hint)
    | .noChange => some ({ t with root := some root }, none, hint)
    | _ => none

/-- The loop of `btree_pop_min`: the first item and the node without it, if the first leaf can spare it. -/
def popMinLoop : Nat → Node α → Option (Option (α × Node α))
  | 0, _ => none
  | _ + 1, .leaf items =>
    if items.length > b.minItems then do
      let prev ← items[0]?
      some (some (prev, .leaf (items.eraseIdx 0)))
    else some none
  | fuel + 1, .branch items children => do
    let child ← children[0]?
    let popped ← popMinLoop fuel child
    some (popped.map fun (prev, child) => (prev, .branch items (children.set 0 child)))

/-- The loop of `btree_pop_max`. -/
def popMaxLoop : Nat → Node α → Option (Option (α × Node α))
  | 0, _ => none
  | _ + 1, .leaf items =>
    if items.length > b.minItems then do
      let prev ← items[items.length - 1]?
      some (some (prev, .leaf (items.eraseIdx (items.length - 1))))
    else some none
  | fuel + 1, .branch items children => do
    let child ← children[items.length]?
    let popped ← popMaxLoop fuel child
    some (popped.map fun (prev, child) => (prev, .branch items (children.set items.length child)))

/-- What `btree_pop_min` and `btree_pop_max` share: the loop, and `btree_delete0` when it finds no spare item. -/
def pop (loop : Nat → Node α → Option (Option (α × Node α))) (act : DelAct α) (t : Btree α) :
    Option (Btree α × Option α) := do
  let t := { t with oom := false }
  let popped ← match t.root with
    | none => some none
    | some root => loop t.height root
  match popped with
  | some (prev, root) => some ({ t with root := some root, count := t.count - 1 }, some prev)
  | none =>
    let (t, prev, _) ← delete0 b t act none
    some (t, prev)

def popMin (t : Btree α) : Option (Btree α × Option α) := pop b (popMinLoop b) .popFront t

def popMax (t : Btree α) : Option (Btree α × Option α) := pop b (popMaxLoop b) .popBack t

/-- `btree_clear` -/
def clear (_ : Btree α) : Btree α := new

/-! ### Calls -/

/-- A call on a tree. `malloc n` tells whether the `n`-th allocation of the call succeeds. -/
inductive Call (α : Type) where
  | set (malloc : Nat → Bool) (item : α) (hint : Option Hint)
  | load (malloc : Nat → Bool) (item : α)
  | get (key : α) (hint : Option Hint)
  | delete (key : α) (hint : Option Hint)
  | popMin
  | popMax
  | min
  | max
  | count
  | oom
  | clear

/-- What a call returns: the item that a pointer points to, unless it is null, a number or a flag. -/
inductive Ret (α : Type) where
  | item (item : Option α)
  | size (n : Nat)
  | flag (p : Bool)
  | unit
deriving DecidableEq

def step (t : Btree α) : Call α → Option (Btree α × Ret α)
  | .set malloc item hint => do
    let (t, prev, _) ← set0 b malloc t item hint
    some (t, .item prev)
  | .load malloc item => do
    let (t, prev) ← load b malloc t item
    some (t, .item prev)
  | .get key hint => do
    let (item, _) ← get0 b t key hint
    some (t, .item item)
  | .delete key hint => do
    let (t, prev, _) ← delete0 b t (.delKey key) hint
    some (t, .item prev)
  | .popMin => do
    let (t, prev) ← popMin b t
    some (t, .item prev)
  | .popMax => do
    let (t, prev) ← popMax b t
    some (t, .item prev)
  | .min => do
    let item ← t.min
    some (t, .item item)
  | .max => do
    let item ← t.max
    some (t, .item item)
  | .count => some (t, .size t.count)
  | .oom => some (t, .flag t.oom)
  | .clear => some (t.clear, .unit)

end Operations

end Btree

end KvStore
