import KvStore.Theorems.Rbtree
import KvStore.Theorems.Sound

/-! # How far the red-black tree engine walks

In every store that calls can make, the search of a key and the descent of an insertion visit a number of nodes that is
logarithmic in the number of keys. -/

namespace KvStore
open RedBlack FiniteMap

section Walks
variable {T : Rbtree} {t : RBTree Cell} {ctx : Ctx Cell} {k : CString} {fuel : Nat}

/-- More rounds than a path has nodes. -/
def Deeper (t : RBTree Cell) (fuel : Nat) : Prop := ∀ p ∈ t.paths, p.length < fuel

theorem Deeper.pos (h : Deeper t fuel) : 0 < fuel := by
  obtain ⟨p, hp⟩ : ∃ p, p ∈ t.paths := by
    induction t with
    | nil => exact ⟨[], List.mem_singleton.mpr rfl⟩
    | node c l e r ihl _ =>
      obtain ⟨p, hp⟩ := ihl fun p hp =>
        (Nat.lt_succ_self _).trans (h (c :: p) (List.mem_map_of_mem (List.mem_append_left _ hp)))
      exact ⟨c :: p, List.mem_map_of_mem (List.mem_append_left _ hp)⟩
  exact Nat.zero_lt_of_lt (h p hp)

theorem Deeper.below {c : Color} {l r : RBTree Cell} {e : Cell} (h : Deeper (.node c l e r) (fuel + 1)) :
    Deeper l fuel ∧ Deeper r fuel := by
  refine ⟨fun p hp => ?_, fun p hp => ?_⟩
  · exact Nat.lt_of_succ_lt_succ (h (c :: p) (List.mem_map_of_mem (List.mem_append_left _ hp)))
  · exact Nat.lt_of_succ_lt_succ (h (c :: p) (List.mem_map_of_mem (List.mem_append_right _ hp)))

/-- A search goes down one path. -/
theorem Rep.searchLoop_deeper (h : Rep T (plug ctx t)) (hfuel : Deeper t fuel) :
    rbtreeSearchLoop T k fuel (ptrOf T.nil t) = some (ptrOf T.nil (descend Cell.key k ctx t).2) := by
  induction t generalizing ctx fuel with
  | nil =>
    obtain ⟨fuel, rfl⟩ := Nat.exists_eq_succ_of_ne_zero hfuel.pos.ne'
    simp [rbtreeSearchLoop, descend]
  | node c l e r ihl ihr =>
    obtain ⟨fuel, rfl⟩ := Nat.exists_eq_succ_of_ne_zero hfuel.pos.ne'
    have F := h.fields (s := .left)
    have hl : Rep T (plug (⟨.left, c, e, r⟩ :: ctx) l) := h
    have hr : Rep T (plug (⟨.right, c, e, l⟩ :: ctx) r) := h
    simp only [rbtreeSearchLoop, descend, Option.bind_eq_bind, strcmp_neg, gt_iff_lt, strcmp_pos, ptrOf_node]
    rw [if_pos (h.live_mk (s := .left)).1, F.key, Option.bind_some, F.left, Option.bind_some, F.right, Option.bind_some]
    split
    · exact ihl hl hfuel.below.1
    split
    · exact ihr hr hfuel.below.2
    · rfl

/-- So does the descent of an insertion. -/
theorem Rep.insertLoop_deeper (h : Rep T (plug ctx t)) (hfuel : Deeper t fuel) :
    rbtreeInsertLoop T k fuel (ptrOf T.nil t) (ctxPtr T.nil ctx) =
      match descend Cell.key k ctx t with
      | (ctx', .nil) => some (some (ctxPtr T.nil ctx'))
      | _ => some none := by
  induction t generalizing ctx fuel with
  | nil =>
    obtain ⟨fuel, rfl⟩ := Nat.exists_eq_succ_of_ne_zero hfuel.pos.ne'
    simp [rbtreeInsertLoop, descend]
  | node c l e r ihl ihr =>
    obtain ⟨fuel, rfl⟩ := Nat.exists_eq_succ_of_ne_zero hfuel.pos.ne'
    have F := h.fields (s := .left)
    have hl : Rep T (plug (⟨.left, c, e, r⟩ :: ctx) l) := h
    have hr : Rep T (plug (⟨.right, c, e, l⟩ :: ctx) r) := h
    simp only [rbtreeInsertLoop, descend, Option.bind_eq_bind, strcmp_neg, gt_iff_lt, strcmp_pos, ptrOf_node]
    rw [if_pos (h.live_mk (s := .left)).1, F.key, Option.bind_some, F.left, Option.bind_some, F.right, Option.bind_some]
    split
    · exact ihl hl hfuel.below.1
    split
    · exact ihr hr hfuel.below.2
    · rfl

/-- As many rounds as a red-black tree of this many nodes can ask for: one for each node of a path, and one for the
    sentinel at its end. -/
def roundsFor (n : Nat) : Nat := 2 * (n + 1).log2 + 1

theorem RbtreeInv.deeper (h : RbtreeInv T t) : Deeper t (roundsFor t.toList.length) :=
  fun p hp => Nat.lt_succ_of_le (h.valid.length_path_le_log p hp)

end Walks

/-- After any calls, whatever their allocations came to, a search ends within a number of rounds that is logarithmic in
    the number of keys, found or not, and so does the descent of an insertion. -/
theorem rbtree_runs_depth {calls : List Call} {T : Rbtree} {outs : List Ret}
    (hrun : Run.runs rbtreeEngine.exec kvsRbtreeCreate calls = some (T, outs)) :
    ∃ n : Nat, kvsRbtreeCount T = some (n : Int) ∧ ∀ key,
      (∃ node, rbtreeSearch T key = some node ∧ rbtreeSearchLoop T key (roundsFor n) T.root = some node) ∧
      ∃ y, rbtreeInsertLoop T key T.fuel T.root T.nil = some y ∧
        rbtreeInsertLoop T key (roundsFor n) T.root T.nil = some y := by
  obtain ⟨t, hi⟩ := EngineKind.rbtreeKeeps.runs rbtreeLaws.set_eq rbtreeLaws.modify_eq (EngineKind.created_sound .rbtree)
    hrun
  have hroot : T.root = ptrOf T.nil t := hi.rep.linked.root
  have hrep : Rep T (plug [] t) := hi.rep
  refine ⟨_, hrep.count, fun key => ⟨⟨_, hrep.search, ?_⟩, ?_⟩⟩
  · rw [hroot]
    exact hrep.searchLoop_deeper hi.deeper
  · rw [hroot]
    have hlong := hrep.insertLoop (k := key) (Nat.lt_succ_of_lt hrep.length_lt)
    have hshort := hrep.insertLoop_deeper (k := key) hi.deeper
    generalize descend Cell.key key [] t = d at hlong hshort
    obtain ⟨ctx', t'⟩ := d
    cases t' with
    | nil => exact ⟨_, hlong, hshort⟩
    | node c l e r => exact ⟨_, hlong, hshort⟩

/-- The calls `someCalls`, and a modification that finds no memory for its value. -/
def lostValue : List Call := someCalls ++ [.modify ⟨5, fun _ => false, fun _ => false⟩ (.ofBytes [97]) (.ofBytes [5])]

theorem rbtree_runs_depth_lostValue : ∃ T outs, Run.runs rbtreeEngine.exec kvsRbtreeCreate lostValue = some (T, outs) ∧
    ∃ n : Nat, kvsRbtreeCount T = some (n : Int) ∧ ∀ key,
      (∃ node, rbtreeSearch T key = some node ∧ rbtreeSearchLoop T key (roundsFor n) T.root = some node) ∧
      ∃ y, rbtreeInsertLoop T key T.fuel T.root T.nil = some y ∧
        rbtreeInsertLoop T key (roundsFor n) T.root T.nil = some y :=
  ⟨_, _, rfl, @rbtree_runs_depth lostValue _ _ rfl⟩

end KvStore
