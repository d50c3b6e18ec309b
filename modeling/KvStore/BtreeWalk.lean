import KvStore.Btree

/-! Going through a B-tree: the scans, which call a function on one item after the other until it returns false, and the
    iterators. -/

namespace KvStore.Btree

variable {α σ : Type}

/-! ### Scans -/

section Scans
variable (b : Settings α) (iter : α → σ → σ × Bool)

/-- The items of a leaf one after the other. -/
def visit : List α → σ → σ × Bool
  | [], s => (s, true)
  | x :: xs, s =>
    let (s, more) := iter x s
    if more then visit xs s else (s, false)

/-- The items of a branch, each with the child that comes after it. -/
def visitPairs (scan : Node α → σ → Option (σ × Bool)) : List α → List (Node α) → σ → Option (σ × Bool)
  | [], _, s => some (s, true)
  | _ :: _, [], _ => none
  | x :: xs, c :: cs, s => do
    let (s, more) := iter x s
    if more then
      let (s, more) ← scan c s
      if more then visitPairs scan xs cs s else some (s, false)
    else some (s, false)

/-- `btree_node_scan` -/
def nodeScan : Nat → Node α → σ → Option (σ × Bool)
  | 0, _, _ => none
  | _ + 1, .leaf items, s => some (visit iter items s)
  | fuel + 1, .branch items children, s => do
    let first ← children[0]?
    let (s, more) ← nodeScan fuel first s
    if more then visitPairs iter (nodeScan fuel) items (children.drop 1) s else some (s, false)

/-- `btree_node_ascend` -/
def nodeAscend : Nat → Node α → α → σ → Option Hint → Nat → Option (σ × Bool)
  | 0, _, _, _, _, _ => none
  | _ + 1, .leaf items, pivot, s, hint, depth => do
    let (i, _, _) ← search b.compare items pivot hint depth
    some (visit iter (items.drop i) s)
  | fuel + 1, .branch items children, pivot, s, hint, depth => do
    let (i, found, hint) ← search b.compare items pivot hint depth
    if found then visitPairs iter (nodeScan iter fuel) (items.drop i) (children.drop (i + 1)) s
    else
      let child ← children[i]?
      let (s, more) ← nodeAscend fuel child pivot s hint (depth + 1)
      if more then visitPairs iter (nodeScan iter fuel) (items.drop i) (children.drop (i + 1)) s else some (s, false)

/-- `btree_ascend_hint` -/
def ascend (t : Btree α) (pivot : Option α) (s : σ) (hint : Option Hint) : Option (σ × Bool) :=
  match t.root, pivot with
  | none, _ => some (s, true)
  | some root, none => nodeScan iter t.height root s
  | some root, some pivot => nodeAscend b iter t.height root pivot s hint 0

/-- `btree_node_reverse`. The last item of a node without items would be read from in front of the array. -/
def nodeReverse : Nat → Node α → σ → Option (σ × Bool)
  | 0, _, _ => none
  | _ + 1, .leaf items, s => if items.length = 0 then none else some (visit iter items.reverse s)
  | fuel + 1, .branch items children, s => do
    let last ← children[items.length]?
    let (s, more) ← nodeReverse fuel last s
    if more then
      if items.length = 0 then none
      else visitPairs iter (nodeReverse fuel) items.reverse (children.take items.length).reverse s
    else some (s, false)

/-- `btree_node_descend` -/
def nodeDescend : Nat → Node α → α → σ → Option Hint → Nat → Option (σ × Bool)
  | 0, _, _, _, _, _ => none
  | _ + 1, .leaf items, pivot, s, hint, depth => do
    let (i, found, _) ← search b.compare items pivot hint depth
    some (visit iter (items.take (if found then i + 1 else i)).reverse s)
  | fuel + 1, .branch items children, pivot, s, hint, depth => do
    let (i, found, hint) ← search b.compare items pivot hint depth
    if found then
      visitPairs iter (nodeReverse iter fuel) (items.take (i + 1)).reverse (children.take (i + 1)).reverse s
    else
      let child ← children[i]?
      let (s, more) ← nodeDescend fuel child pivot s hint (depth + 1)
      if more then visitPairs iter (nodeReverse iter fuel) (items.take i).reverse (children.take i).reverse s
      else some (s, false)

/-- `btree_descend_hint` -/
def descend (t : Btree α) (pivot : Option α) (s : σ) (hint : Option Hint) : Option (σ × Bool) :=
  match t.root, pivot with
  | none, _ => some (s, true)
  | some root, none => nodeReverse iter t.height root s
  | some root, some pivot => nodeDescend b iter t.height root pivot s hint 0

end Scans

/-! ### Iterators -/

/-- `struct btree_iter`: the copy of the item, and the stack, its top first. -/
structure Iter (α : Type) where
  item : Option α
  seeked : Bool
  stack : List (Node α × Int)

namespace Iter

/-- `btree_iter_new` -/
def new : Iter α := ⟨none, false, []⟩

/-- `iter->stack[iter->nstack++] = …`. The stack has as many places as the tree has levels. -/
def push (t : Btree α) (frame : Node α × Int) (stack : List (Node α × Int)) : Option (List (Node α × Int)) :=
  if stack.length < t.height then some (frame :: stack) else none

/-- `btree_copy_item_into` from the top of the stack. -/
def copyItem (stack : List (Node α × Int)) : Option (Iter α) :=
  match stack with
  | [] => none
  | (node, index) :: _ =>
    if index < 0 then none
    else do
      let item ← node.items[index.toNat]?
      some ⟨some item, true, stack⟩

/-- The loop down to the first item below a node. -/
def pushFirst (t : Btree α) : Nat → Node α → List (Node α × Int) → Option (List (Node α × Int))
  | 0, _, _ => none
  | _ + 1, .leaf items, stack => push t (.leaf items, 0) stack
  | fuel + 1, .branch items children, stack => do
    let stack ← push t (.branch items children, 0) stack
    let child ← children[0]?
    pushFirst t fuel child stack

/-- The loop down to the last item below a node. -/
def pushLast (t : Btree α) : Nat → Node α → List (Node α × Int) → Option (List (Node α × Int))
  | 0, _, _ => none
  | _ + 1, .leaf items, stack => push t (.leaf items, items.length - 1) stack
  | fuel + 1, .branch items children, stack => do
    let stack ← push t (.branch items children, items.length) stack
    let child ← children[items.length]?
    pushLast t fuel child stack

/-- `btree_iter_first` -/
def first (t : Btree α) (it : Iter α) : Option (Iter α × Bool) :=
  match t.root with
  | none => some (⟨it.item, false, []⟩, false)
  | some root => do
    let stack ← pushFirst t t.height root []
    let it ← copyItem stack
    some (it, true)

/-- `btree_iter_last` -/
def last (t : Btree α) (it : Iter α) : Option (Iter α × Bool) :=
  match t.root with
  | none => some (⟨it.item, false, []⟩, false)
  | some root => do
    let stack ← pushLast t t.height root []
    let it ← copyItem stack
    some (it, true)

/-- The loop of `btree_iter_next` up to a node with an item to come. -/
def popNext : List (Node α × Int) → List (Node α × Int)
  | [] => []
  | (node, index) :: stack => if index < node.nitems then (node, index) :: stack else popNext stack

/-- The loop of `btree_iter_prev` up to a node with an item in front. -/
def popPrev : List (Node α × Int) → List (Node α × Int)
  | [] => []
  | (node, index) :: stack => if index - 1 > -1 then (node, index - 1) :: stack else popPrev stack

/-- The end of a step: the item at the top of the stack, unless the stack has run empty. -/
def settle (it : Iter α) (stack : List (Node α × Int)) : Option (Iter α × Bool) :=
  match stack with
  | [] => some (⟨it.item, true, []⟩, false)
  | frame :: stack => do
    let it ← copyItem (frame :: stack)
    some (it, true)

/-- `btree_iter_next` on an iterator that was seeked. An empty stack is read in front of its first place. -/
def advance (t : Btree α) (it : Iter α) : Option (Iter α × Bool) :=
  match it.stack with
  | [] => none
  | (.leaf items, index) :: stack =>
    if index + 1 = items.length then settle it (popNext stack) else settle it ((.leaf items, index + 1) :: stack)
  | (.branch items children, index) :: stack => do
    let child ← children[(index + 1).toNat]?
    let stack ← pushFirst t t.height child ((.branch items children, index + 1) :: stack)
    settle it stack

/-- `btree_iter_next` -/
def next (t : Btree α) (it : Iter α) : Option (Iter α × Bool) := if it.seeked then advance t it else first t it

/-- `btree_iter_prev` -/
def prev (t : Btree α) (it : Iter α) : Option (Iter α × Bool) :=
  if it.seeked then
    match it.stack with
    | [] => none
    | (.leaf items, index) :: stack =>
      if index - 1 = -1 then settle it (popPrev stack) else settle it ((.leaf items, index - 1) :: stack)
    | (.branch items children, index) :: stack => do
      let child ← children[index.toNat]?
      let stack ← pushLast t t.height child ((.branch items children, index) :: stack)
      settle it stack
  else some (it, false)

/-- The loop of `btree_iter_seek`. -/
def seekLoop (b : Settings α) (t : Btree α) (key : α) (it : Iter α) :
    Nat → Node α → List (Node α × Int) → Option (Iter α × Bool)
  | 0, _, _ => none
  | _ + 1, .leaf items, stack => do
    let (i, found) ← bsearch b.compare items key
    if found then
      let stack ← push t (.leaf items, i) stack
      let it ← copyItem stack
      some (it, true)
    else
      let stack ← push t (.leaf items, (i : Int) - 1) stack
      advance t ⟨it.item, true, stack⟩
  | fuel + 1, .branch items children, stack => do
    let (i, found) ← bsearch b.compare items key
    let stack ← push t (.branch items children, i) stack
    if found then
      let it ← copyItem stack
      some (it, true)
    else
      let child ← children[i]?
      seekLoop b t key it fuel child stack

/-- `btree_iter_seek` -/
def seek (b : Settings α) (t : Btree α) (key : α) (it : Iter α) : Option (Iter α × Bool) :=
  match t.root with
  | none => some (⟨it.item, false, []⟩, false)
  | some root => seekLoop b t key it t.height root []

/-- A call on an iterator. -/
inductive Move (α : Type) where
  | first
  | last
  | next
  | prev
  | seek (key : α)

/-- A call, with what it returns and what `btree_iter_item` points to afterwards. -/
def step (b : Settings α) (t : Btree α) (it : Iter α) (move : Move α) : Option (Iter α × Bool × Option α) := do
  let (it, ok) ← match move with
    | .first => it.first t
    | .last => it.last t
    | .next => it.next t
    | .prev => it.prev t
    | .seek key => it.seek b t key
  some (it, ok, it.item)

end Iter

end KvStore.Btree
