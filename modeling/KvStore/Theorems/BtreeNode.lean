import KvStore.Btree
import KvStore.Lib.Weave

/-! What a node of a B-tree holds (`Node.toList`), its shape (`Node.Shape`), and the place that a search finds in it:
    the same with any hint. -/

namespace KvStore.Btree
open Ordered Weave Std

variable {α : Type}

/-! ### Searching a node -/

section Search
variable {compare : α → α → Ordering} [TransCmp compare] {items : List α} {key : α} {i : Nat} {found : Bool}

theorem bsearchLoop_splits (hs : Sorted compare items) : ∀ {fuel i n : Nat}, Window compare key items i n →
    n - i ≤ fuel → ∃ j found, bsearchLoop compare items key fuel i n = some (j, found) ∧
      Splits compare key items j found
  | 0, i, n, hw, hf => by
    obtain rfl : i = n := Nat.le_antisymm hw.le (by omega)
    exact ⟨i, false, by simp [bsearchLoop], hw.miss⟩
  | fuel + 1, i, n, hw, hf => by
    rw [bsearchLoop]
    by_cases hlt : i < n
    · have hj : (i + n) / 2 < items.length := by
        have := hw.le_length
        omega
      have hget := List.getElem?_eq_getElem hj
      simp only [hlt, if_true, hget, Option.bind_eq_bind, Option.bind_some]
      cases hc : compare key items[(i + n) / 2] with
      | lt => exact bsearchLoop_splits hs (hw.left hs (by omega) (by omega) hget hc) (by omega)
      | eq => exact ⟨_, true, rfl, Window.hit hs hget hc⟩
      | gt => exact bsearchLoop_splits hs (hw.right hs (by omega) hget hc) (by omega)
    · obtain rfl : i = n := Nat.le_antisymm hw.le (by omega)
      exact ⟨i, false, by simp, hw.miss⟩

theorem bsearchHintLoop_splits (hs : Sorted compare items) : ∀ {fuel lo hi : Nat}, Window compare key items lo hi →
    hi - lo ≤ fuel → ∃ j found, bsearchHintLoop compare items key fuel lo ((hi : Int) - 1) = some (j, found) ∧
      Splits compare key items j found
  | 0, lo, hi, hw, hf => by
    obtain rfl : lo = hi := Nat.le_antisymm hw.le (by omega)
    have hle : ¬(lo : Int) ≤ (lo : Int) - 1 := by omega
    exact ⟨lo, false, by simp [bsearchHintLoop, hle], hw.miss⟩
  | fuel + 1, lo, hi, hw, hf => by
    rw [bsearchHintLoop]
    by_cases hlt : lo < hi
    · obtain ⟨mid, hmid⟩ : ∃ mid : Nat, ((lo : Int) + ((hi : Int) - 1)) / 2 = mid := ⟨(lo + hi - 1) / 2, by omega⟩
      have hj : mid < items.length := by
        have := hw.le_length
        omega
      have hget := List.getElem?_eq_getElem hj
      have hle : (lo : Int) ≤ (hi : Int) - 1 := by omega
      have hright : hi - (mid + 1) ≤ fuel := by omega
      simp only [hle, if_true, hmid, Int.toNat_natCast, hget, Option.bind_eq_bind, Option.bind_some]
      cases hc : compare key items[mid] with
      | lt => exact bsearchHintLoop_splits hs (hw.left hs (by omega) (by omega) hget hc) (by omega)
      | eq => exact ⟨_, true, rfl, Window.hit hs hget hc⟩
      | gt => exact bsearchHintLoop_splits hs (hw.right hs (by omega) hget hc) hright
    · obtain rfl : lo = hi := Nat.le_antisymm hw.le (by omega)
      have hle : ¬(lo : Int) ≤ (lo : Int) - 1 := by omega
      exact ⟨lo, false, by simp [hle], hw.miss⟩

/-- What a hint leaves to search, or the place when it points to the key. -/
theorem probe_splits (hs : Sorted compare items) (hne : items ≠ []) (index : Nat) :
    (∃ i, probe compare items key index = some (.inl i) ∧ Splits compare key items i true) ∨
      ∃ lo hi : Nat, probe compare items key index = some (.inr (lo, (hi : Int) - 1)) ∧
        Window compare key items lo hi := by
  rw [probe]
  by_cases hpos : 0 < index
  · have hlen := List.length_pos_of_ne_nil hne
    have hlt : min index (items.length - 1) < items.length := by omega
    have hget := List.getElem?_eq_getElem hlt
    have hw : Window compare key items 0 items.length := .whole key items
    simp only [hpos, if_true, hget, Option.bind_eq_bind, Option.bind_some]
    cases hc : compare key items[min index (items.length - 1)] with
    | lt => exact Or.inr ⟨0, _, rfl, hw.left hs (Nat.zero_le _) hlt hget hc⟩
    | eq => exact Or.inl ⟨_, rfl, Window.hit hs hget hc⟩
    | gt => exact Or.inr ⟨_, _, rfl, hw.right hs hlt hget hc⟩
  · exact Or.inr ⟨0, items.length, by simp [hpos], Window.whole key items⟩

theorem bsearch_splits (hs : Sorted compare items) (h : Splits compare key items i found) :
    bsearch compare items key = some (i, found) := by
  have hwhole : Window compare key items 0 items.length := .whole key items
  obtain ⟨j, f, hb, hj⟩ := bsearchLoop_splits hs hwhole (Nat.sub_le items.length 0)
  obtain ⟨rfl, rfl⟩ := h.unique hj
  exact hb

/-- A search of these items for the key ends at the place `i`, with any hint. -/
def Finds (compare : α → α → Ordering) (items : List α) (key : α) (i : Nat) (found : Bool) : Prop :=
  ∀ hint depth, ∃ hint', search compare items key hint depth = some (i, found, hint')

/-- A search finds the place of the key. -/
theorem finds_splits (hs : Sorted compare items) (hne : items ≠ []) (h : Splits compare key items i found) :
    Finds compare items key i found := by
  intro hint depth
  have hwhole : Window compare key items 0 items.length := .whole key items
  cases hint with
  | none => exact ⟨none, by simp [search, bsearch_splits hs h]⟩
  | some hint =>
    have hloop {lo hi : Nat} (hw : Window compare key items lo hi) :
        bsearchHintLoop compare items key items.length lo ((hi : Int) - 1) = some (i, found) := by
      obtain ⟨j, f, hb, hj⟩ := bsearchHintLoop_splits hs hw ((Nat.sub_le hi lo).trans hw.le_length)
      obtain ⟨rfl, rfl⟩ := h.unique hj
      exact hb
    rw [search, bsearchHint]
    split
    · next hdepth =>
      have hprobe := @probe_splits _ _ _ _ key hs hne (hint ⟨depth, hdepth⟩).toNat
      rcases hprobe with ⟨j, hp, hj⟩ | ⟨lo, hi, hp, hw⟩
      · obtain ⟨rfl, rfl⟩ := h.unique hj
        exact ⟨some hint, by simp [hp]⟩
      · exact ⟨some (Function.update hint ⟨depth, hdepth⟩ (UInt8.ofNat i)), by simp [hp, hloop hw]⟩
    · have hall : bsearchHintLoop compare items key items.length 0 (items.length - 1) = some (i, found) := hloop hwhole
      exact ⟨some hint, by simp [hall]⟩

end Search

/-! ### What a node holds -/

section Contents

mutual

/-- The items below a node in order. -/
def Node.toList : Node α → List α
  | .leaf items => items
  | .branch items children => weave items (Node.toLists children)

def Node.toLists : List (Node α) → List (List α)
  | [] => []
  | node :: nodes => node.toList :: Node.toLists nodes

end

theorem Node.toLists_eq : ∀ nodes : List (Node α), Node.toLists nodes = nodes.map Node.toList
  | [] => rfl
  | node :: nodes => congrArg (node.toList :: ·) (Node.toLists_eq nodes)

@[simp] theorem Node.toList_leaf (items : List α) : (Node.leaf items).toList = items := rfl

theorem Node.toList_branch (items : List α) (children : List (Node α)) :
    (Node.branch items children).toList = weave items (children.map Node.toList) := by
  rw [Node.toList, Node.toLists_eq]

variable {xs ys : List α} {cs ds : List (Node α)} {c : Node α}

/-- The items in front of the children `cs` and behind each of them. -/
def before (xs : List α) (cs : List (Node α)) : List α := front xs (cs.map Node.toList)

def behind (ys : List α) (ds : List (Node α)) : List α := back ys (ds.map Node.toList)

theorem Node.toList_focus (hcs : cs.length = xs.length) (hds : ds.length = ys.length) :
    (Node.branch (xs ++ ys) (cs ++ c :: ds)).toList = before xs cs ++ (c.toList ++ behind ys ds) := by
  rw [Node.toList_branch, List.map_append, List.map_cons,
    weave_focus (by rw [List.length_map, hcs]) (by rw [List.length_map, hds])]
  rfl

end Contents

/-! ### The shape of a node -/

section Shape
variable (b : Settings α)

/-- The limits that `btree_new` sets: a full node splits into two of the fewest items and a median. -/
structure Settings.Ok (b : Settings α) : Prop where
  maxItems : b.maxItems = 2 * b.minItems + 1
  minItems : 0 < b.minItems

theorem normalizeMaxItems_ok (compare : α → α → Ordering) (maxItems : Nat) :
    Settings.Ok ⟨compare, normalizeMaxItems maxItems⟩ := by
  constructor <;>
  · simp only [Settings.minItems, normalizeMaxItems]
    split_ifs <;> omega

/-- All leaves are `h` levels below the node, no node below has more items than there is room for, and none but the
    node itself has too few. -/
def Node.Shape : Nat → Node α → Prop
  | 0, .leaf items => items.length ≤ b.maxItems
  | h + 1, .branch items children => items.length ≤ b.maxItems ∧ children.length = items.length + 1 ∧
      ∀ c ∈ children, c.Shape h ∧ b.minItems ≤ c.nitems
  | _, _ => False

/-- A node below the root. -/
def Node.Child (h : Nat) (c : Node α) : Prop := c.Shape b h ∧ b.minItems ≤ c.nitems

variable {b} {h : Nat} {node : Node α} {items xs ys : List α} {children cs ds : List (Node α)} {c : Node α}

theorem Node.Shape.nitems_le (hn : node.Shape b h) : node.nitems ≤ b.maxItems := by
  cases node <;> cases h <;> simp only [Node.Shape] at hn
  · exact hn
  · exact hn.1

theorem Node.shape_leaf : (Node.leaf items).Shape b h ↔ h = 0 ∧ items.length ≤ b.maxItems := by
  cases h <;> simp [Node.Shape]

theorem Node.shape_branch : (Node.branch items children).Shape b (h + 1) ↔
    items.length ≤ b.maxItems ∧ children.length = items.length + 1 ∧ ∀ c ∈ children, c.Child b h := Iff.rfl

theorem Node.Child.pos (hb : b.Ok) (hc : c.Child b h) : 0 < c.nitems := hb.minItems.trans_le hc.2

/-- A branch around one of its children. -/
theorem Node.shape_focus (hcs : cs.length = xs.length) :
    (Node.branch (xs ++ ys) (cs ++ c :: ds)).Shape b (h + 1) ↔ (xs ++ ys).length ≤ b.maxItems ∧
      ds.length = ys.length ∧ c.Child b h ∧ (∀ d ∈ cs, d.Child b h) ∧ ∀ d ∈ ds, d.Child b h := by
  have hlen : (cs ++ c :: ds).length = (xs ++ ys).length + 1 ↔ ds.length = ys.length := by
    simp only [List.length_append, List.length_cons]
    omega
  rw [Node.shape_branch, hlen, List.forall_mem_append, List.forall_mem_cons]
  tauto

/-- The child at a place of a branch. -/
theorem Node.Shape.place (hn : (Node.branch (xs ++ ys) children).Shape b (h + 1)) :
    ∃ cs c ds, children = cs ++ c :: ds ∧ cs.length = xs.length ∧ ds.length = ys.length := exists_place hn.2.1

end Shape

section Sorted
variable {compare : α → α → Ordering} [TransCmp compare] {key : α} {b : Settings α} {h : Nat} {xs ys : List α}
  {cs ds : List (Node α)} {c : Node α} (hcs : cs.length = xs.length) (hds : ds.length = ys.length)
  (hs : Sorted compare (Node.branch (xs ++ ys) (cs ++ c :: ds)).toList)

omit [TransCmp compare] in
theorem items_sublist {node : Node α} (hn : node.Shape b h) : node.items.Sublist node.toList := by
  cases node with
  | leaf items => exact List.Sublist.refl _
  | branch items children =>
    cases h with
    | zero => exact hn.elim
    | succ h =>
      rw [Node.toList_branch]
      exact sublist_weave (by rw [List.length_map, hn.2.1]; exact Nat.lt_succ_self _)

omit [TransCmp compare] in
theorem toList_ne_nil {node : Node α} (hn : node.Shape b h) (hpos : 0 < node.nitems) : node.toList ≠ [] :=
  List.ne_nil_of_length_pos (hpos.trans_le (items_sublist hn).length_le)

omit [TransCmp compare] in
theorem sorted_items {node : Node α} (hn : node.Shape b h) (hs : Sorted compare node.toList) :
    Sorted compare node.items := hs.sublist (items_sublist hn)

include hcs hds hs

omit [TransCmp compare] in
theorem sorted_child : Sorted compare c.toList := by
  rw [Node.toList_focus hcs hds] at hs
  exact (sorted_append.mp (sorted_append.mp hs).2.1).1

theorem gt_before (hx : ∀ x ∈ xs, compare key x = .gt) : ∀ x ∈ before xs cs, compare key x = .gt := by
  rw [Node.toList_focus hcs hds] at hs
  exact gt_front (sorted_append.mp hs).1 hx

theorem lt_behind (hy : ∀ x ∈ ys, compare key x = .lt) : ∀ x ∈ behind ys ds, compare key x = .lt := by
  rw [Node.toList_focus hcs hds] at hs
  exact lt_back (sorted_append.mp (sorted_append.mp hs).2.1).2.1 hy

end Sorted

/-! ### Valid trees -/

section Valid

def toList (t : Btree α) : List α := (t.root.map Node.toList).getD []

/-- The root is the only node that may have few items, but it has one; the tree knows its height. -/
def Rooted (b : Settings α) (t : Btree α) : Prop :=
  match t.root with
  | none => t.height = 0
  | some root => ∃ h, t.height = h + 1 ∧ root.Shape b h ∧ 0 < root.nitems

structure Valid (b : Settings α) (t : Btree α) : Prop where
  rooted : Rooted b t
  sorted : Sorted b.compare t.toList
  count : t.count = t.toList.length

theorem new_valid (b : Settings α) : Valid b new := ⟨rfl, List.Pairwise.nil, rfl⟩

variable {b : Settings α} {h count : Nat} {root : Node α} {oom : Bool}

theorem valid_root : Valid b ⟨some root, count, h + 1, oom⟩ ↔
    root.Shape b h ∧ 0 < root.nitems ∧ Sorted b.compare root.toList ∧ count = root.toList.length := by
  constructor
  · rintro ⟨⟨h', hh, hshape, hpos⟩, hs, hc⟩
    obtain rfl := Nat.succ.inj hh
    exact ⟨hshape, hpos, hs, hc⟩
  · rintro ⟨hshape, hpos, hs, hc⟩
    exact ⟨⟨h, rfl, hshape, hpos⟩, hs, hc⟩

theorem Valid.cases {t : Btree α} (ht : Valid b t) : t = ⟨none, 0, 0, t.oom⟩ ∨
    ∃ root h, t = ⟨some root, root.toList.length, h + 1, t.oom⟩ ∧ root.Shape b h ∧ 0 < root.nitems ∧
      Sorted b.compare root.toList := by
  obtain ⟨root, count, height, oom⟩ := t
  obtain ⟨hr, hs, hc⟩ := ht
  cases root with
  | none =>
    obtain rfl : height = 0 := hr
    obtain rfl : count = 0 := hc
    exact Or.inl rfl
  | some root =>
    obtain ⟨h, rfl, hshape, hpos⟩ := hr
    obtain rfl : count = root.toList.length := hc
    exact Or.inr ⟨root, h, rfl, hshape, hpos, hs⟩

theorem Valid.with_oom {t : Btree α} (ht : Valid b t) (oom : Bool) : Valid b { t with oom := oom } :=
  ⟨ht.rooted, ht.sorted, ht.count⟩

end Valid

end KvStore.Btree
