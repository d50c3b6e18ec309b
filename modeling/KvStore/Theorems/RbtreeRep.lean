import KvStore.Rbtree
import KvStore.Lib.RedBlackSearch
import Mathlib.Data.List.Nodup
import Mathlib.Data.List.Perm.Subperm
import Mathlib.Tactic.Set

/-! The tree that a memory holds. `Rep T t` says that the nodes reachable from the root of `T` are those of
    the tree `t`, each at an address of its own and with its left, right and parent pointer in place. The
    elementary updates (paint a node, rotate) are described by what they do to a subtree under its context. -/

namespace KvStore
open RedBlack

/-- A node of the represented tree: its address and the entry it stores. -/
structure Cell where
  ptr : Ptr
  key : CString
  value : CharPtr
  timestamp : UInt64

/-- The memory of the node: `near` is its child on side `s`, `far` the other one. -/
def Cell.node (e : Cell) (s : Side) (c : Color) (near far par : Ptr) : RbtreeNode :=
  ⟨some c, some (s.pick far near), some (s.pick near far), some par, some e.key, some e.value, some e.timestamp⟩

namespace Cell
variable {e : Cell} {s : Side} {c : Color} {near far par : Ptr}

theorem node_side (t : Side) : e.node s c near far par = e.node t c (t.pick (s.pick near far) (s.pick far near))
    (t.pick (s.pick far near) (s.pick near far)) par := by
  cases s <;> cases t <;> rfl

end Cell

/-- The address of the root of a subtree; an empty one is the sentinel. -/
def ptrOf (nil : Ptr) : RBTree Cell → Ptr
  | .nil => nil
  | .node _ _ e _ => e.ptr

/-- The parent pointer of a subtree under its context. -/
def ctxPtr (nil : Ptr) : Ctx Cell → Ptr
  | [] => nil
  | f :: _ => f.item.ptr

def addrs (t : RBTree Cell) : List Ptr := t.toList.map Cell.ptr

def ctxAddrs (ctx : Ctx Cell) : List Ptr := (Ctx.before ctx ++ Ctx.after ctx).map Cell.ptr

/-- The memory holds the subtree `t` with `par` as the parent of its root. -/
def Holds (T : Rbtree) : RBTree Cell → Ptr → Prop
  | .nil, _ => True
  | .node c l e r, par =>
    T.mem e.ptr = some (e.node .left c (ptrOf T.nil l) (ptrOf T.nil r) par) ∧ Holds T l e.ptr ∧ Holds T r e.ptr

/-- The memory holds the context, with `hole` as the address of the subtree below it. -/
def CtxHolds (T : Rbtree) : Ctx Cell → Ptr → Prop
  | [], hole => T.root = hole
  | f :: ctx, hole =>
    T.mem f.item.ptr = some (f.item.node f.side f.color hole (ptrOf T.nil f.sibling) (ctxPtr T.nil ctx)) ∧
      Holds T f.sibling f.item.ptr ∧ CtxHolds T ctx f.item.ptr

/-- The memory holds `t` as the tree below the root pointer. -/
def Linked (T : Rbtree) (t : RBTree Cell) : Prop := Holds T t T.nil ∧ T.root = ptrOf T.nil t

structure Rep (T : Rbtree) (t : RBTree Cell) : Prop where
  linked : Linked T t
  nodup : (addrs t).Nodup
  live : ∀ p ∈ addrs t, p ≠ T.nil ∧ p < T.next
  sentinel : T.color T.nil = some .black
  nilLt : T.nil < T.next

/-! ### Addresses -/

section Addresses
variable {nil : Ptr} {s : Side} {c : Color} {n f t : RBTree Cell} {e : Cell} {ctx : Ctx Cell}

@[simp] theorem ptrOf_nil : ptrOf nil .nil = nil := rfl

@[simp] theorem ptrOf_node {l r : RBTree Cell} : ptrOf nil (.node c l e r) = e.ptr := rfl

@[simp] theorem ptrOf_mk : ptrOf nil (.mk s c n e f) = e.ptr := rfl

@[simp] theorem ctxPtr_cons {f : Frame Cell} : ctxPtr nil (f :: ctx) = f.item.ptr := rfl

theorem addrs_mk : (addrs (.mk s c n e f)).Perm (e.ptr :: (addrs n ++ addrs f)) := by
  unfold addrs
  rw [RBTree.toList_mk, ← List.map_append, ← List.map_cons]
  refine List.Perm.map _ ?_
  cases s
  · exact List.perm_middle
  · have h : Side.right.cat n.toList (Side.right.cat [e] f.toList) = f.toList ++ e :: n.toList := by
      simp [Side.cat, Side.pick]
    rw [h]
    exact List.perm_middle.trans (List.perm_append_comm.cons e)

theorem addrs_plug (ctx : Ctx Cell) (t : RBTree Cell) : (addrs (plug ctx t)).Perm (addrs t ++ ctxAddrs ctx) := by
  unfold addrs ctxAddrs
  rw [toList_plug, ← List.map_append]
  refine List.Perm.map _ ?_
  rw [List.append_assoc]
  exact List.perm_append_comm_assoc _ _ _

theorem ctxAddrs_cons {g : Frame Cell} :
    (ctxAddrs (g :: ctx)).Perm (g.item.ptr :: (addrs g.sibling ++ ctxAddrs ctx)) := by
  have hplug : addrs (plug (g :: ctx) .nil) = addrs (plug ctx (.mk g.side g.color .nil g.item g.sibling)) := rfl
  have h₁ := addrs_plug (g :: ctx) .nil
  have h₂ := addrs_plug ctx (.mk g.side g.color .nil g.item g.sibling)
  exact h₁.symm.trans (hplug ▸ h₂.trans (addrs_mk.append_right (ctxAddrs ctx)))

theorem addrs_eq {t u : RBTree Cell} (h : t.toList = u.toList) : addrs t = addrs u := by
  rw [addrs, addrs, h]

theorem ptrOf_mem (nil : Ptr) (h : t ≠ .nil) : ptrOf nil t ∈ addrs t := by
  cases t with
  | nil => exact absurd rfl h
  | node c l e r => simp [addrs, RBTree.toList, ptrOf]

end Addresses

/-! ### Reads -/

section Reads
variable {T T' : Rbtree} {s : Side} {c : Color} {n f t : RBTree Cell} {e : Cell} {ctx : Ctx Cell}
  {pn pf par hole p : Ptr}

theorem holds_mk : Holds T (.mk s c n e f) par ↔
    T.mem e.ptr = some (e.node s c (ptrOf T.nil n) (ptrOf T.nil f) par) ∧ Holds T n e.ptr ∧ Holds T f e.ptr := by
  cases s
  · exact Iff.rfl
  · refine and_congr ?_ and_comm
    rw [Cell.node_side (s := .right) .left]
    rfl

theorem linked_plug : Linked T (plug ctx t) ↔ Holds T t (ctxPtr T.nil ctx) ∧ CtxHolds T ctx (ptrOf T.nil t) := by
  induction ctx generalizing t with
  | nil => exact Iff.rfl
  | cons f ctx ih =>
    rw [plug, ih, holds_mk]
    simp only [CtxHolds, ptrOf_mk, ctxPtr_cons]
    tauto

/-- The fields of a represented node. -/
structure Fields (T : Rbtree) (e : Cell) (s : Side) (c : Color) (pn pf par : Ptr) : Prop where
  mem : T.mem e.ptr = some (e.node s c pn pf par)

namespace Fields
variable (h : Fields T e s c pn pf par)
include h

theorem color : T.color e.ptr = some c := by simp [Rbtree.color, h.mem, Cell.node]

theorem near : T.child s e.ptr = some pn := by
  cases s <;> simp [Rbtree.child, Rbtree.left, Rbtree.right, h.mem, Cell.node, Side.pick]

theorem far : T.child s.other e.ptr = some pf := by
  cases s <;> simp [Rbtree.child, Rbtree.left, Rbtree.right, h.mem, Cell.node, Side.pick, Side.other]

theorem left : T.left e.ptr = some (s.pick pn pf) := by simp [Rbtree.left, h.mem, Cell.node]

theorem right : T.right e.ptr = some (s.pick pf pn) := by simp [Rbtree.right, h.mem, Cell.node]

theorem parent : T.parent e.ptr = some par := by simp [Rbtree.parent, h.mem, Cell.node]

theorem key : T.key e.ptr = some e.key := by simp [Rbtree.key, h.mem, Cell.node]

theorem value : T.value e.ptr = some e.value := by simp [Rbtree.value, h.mem, Cell.node]

theorem timestamp : T.timestamp e.ptr = some e.timestamp := by simp [Rbtree.timestamp, h.mem, Cell.node]

theorem setColor (c' : Color) : T.setColor e.ptr c' = some (T.put e.ptr (e.node s c' pn pf par)) := by
  simp [Rbtree.setColor, Rbtree.update, h.mem, Cell.node]

theorem setParent (q : Ptr) : T.setParent e.ptr q = some (T.put e.ptr (e.node s c pn pf q)) := by
  simp [Rbtree.setParent, Rbtree.update, h.mem, Cell.node]

theorem setNear (q : Ptr) : T.setChild s e.ptr q = some (T.put e.ptr (e.node s c q pf par)) := by
  cases s <;> simp [Rbtree.setChild, Rbtree.setLeft, Rbtree.setRight, Rbtree.update, h.mem, Cell.node, Side.pick]

theorem setFar (q : Ptr) : T.setChild s.other e.ptr q = some (T.put e.ptr (e.node s c pn q par)) := by
  cases s <;>
    simp [Rbtree.setChild, Rbtree.setLeft, Rbtree.setRight, Rbtree.update, h.mem, Cell.node, Side.pick, Side.other]

theorem setKey (k : CString) :
    T.setKey e.ptr k = some (T.put e.ptr ({ e with key := k }.node s c pn pf par)) := by
  simp [Rbtree.setKey, Rbtree.update, h.mem, Cell.node]

theorem setValue (v : CharPtr) :
    T.setValue e.ptr v = some (T.put e.ptr ({ e with value := v }.node s c pn pf par)) := by
  simp [Rbtree.setValue, Rbtree.update, h.mem, Cell.node]

theorem setTimestamp (ts : UInt64) :
    T.setTimestamp e.ptr ts = some (T.put e.ptr ({ e with timestamp := ts }.node s c pn pf par)) := by
  simp [Rbtree.setTimestamp, Rbtree.update, h.mem, Cell.node]

end Fields

theorem Linked.fields (h : Linked T (plug ctx (.mk s c n e f))) :
    Fields T e s c (ptrOf T.nil n) (ptrOf T.nil f) (ctxPtr T.nil ctx) :=
  ⟨(holds_mk.mp (linked_plug.mp h).1).1⟩

theorem Linked.frame {g : Frame Cell} (h : Linked T (plug (g :: ctx) t)) :
    Fields T g.item g.side g.color (ptrOf T.nil t) (ptrOf T.nil g.sibling) (ctxPtr T.nil ctx) :=
  ⟨(linked_plug.mp h).2.1⟩

theorem Linked.root (h : Linked T t) : T.root = ptrOf T.nil t := h.2

/-! ### Writes -/

@[simp] theorem put_nil {r : RbtreeNode} : (T.put p r).nil = T.nil := rfl

@[simp] theorem put_next {r : RbtreeNode} : (T.put p r).next = T.next := rfl

@[simp] theorem put_root {r : RbtreeNode} : (T.put p r).root = T.root := rfl

@[simp] theorem put_self {r : RbtreeNode} : (T.put p r).mem p = some r := by simp [Rbtree.put]

theorem put_ne {r : RbtreeNode} {q : Ptr} (h : q ≠ p) : (T.put p r).mem q = T.mem q := by simp [Rbtree.put, h]

theorem update_eq {p : Ptr} {n : RbtreeNode} (h : T.mem p = some n) (f : RbtreeNode → RbtreeNode) :
    T.update p f = some (T.put p (f n)) := by
  rw [Rbtree.update, h, Option.map_some]

/-- A subtree does not depend on memory outside its own nodes. -/
theorem Holds.congr (h : Holds T t par) (hnil : T'.nil = T.nil) (hm : ∀ q ∈ addrs t, T'.mem q = T.mem q) :
    Holds T' t par := by
  induction t generalizing par with
  | nil => trivial
  | node c l e r ihl ihr =>
    simp only [addrs, RBTree.toList, List.map_append, List.map_cons, List.mem_append, List.mem_cons] at hm
    obtain ⟨he, hl, hr⟩ := h
    refine ⟨?_, ihl hl fun q hq => hm q (Or.inl hq), ihr hr fun q hq => hm q (Or.inr (Or.inr hq))⟩
    rw [hm e.ptr (Or.inr (Or.inl rfl)), hnil]
    exact he

theorem CtxHolds.congr (h : CtxHolds T ctx hole) (hnil : T'.nil = T.nil) (hroot : T'.root = T.root)
    (hm : ∀ q ∈ ctxAddrs ctx, T'.mem q = T.mem q) : CtxHolds T' ctx hole := by
  induction ctx generalizing hole with
  | nil => exact hroot.trans h
  | cons g ctx ih =>
    have hmem : ∀ q, q = g.item.ptr ∨ q ∈ addrs g.sibling ∨ q ∈ ctxAddrs ctx → T'.mem q = T.mem q := fun q hq =>
      hm q (ctxAddrs_cons.mem_iff.mpr (by simpa using hq))
    obtain ⟨hg, hsib, hctx⟩ := h
    refine ⟨?_, hsib.congr hnil fun q hq => hmem q (Or.inr (Or.inl hq)),
      ih hctx fun q hq => hmem q (Or.inr (Or.inr hq))⟩
    rw [hmem _ (Or.inl rfl), hnil]
    exact hg

theorem Holds.put {r : RbtreeNode} (h : Holds T t par) (hp : p ∉ addrs t) : Holds (T.put p r) t par :=
  h.congr rfl fun _ hq => put_ne fun h' => hp (h' ▸ hq)

theorem CtxHolds.put {r : RbtreeNode} (h : CtxHolds T ctx hole) (hp : p ∉ ctxAddrs ctx) :
    CtxHolds (T.put p r) ctx hole :=
  h.congr rfl rfl fun _ hq => put_ne fun h' => hp (h' ▸ hq)

/-- Making a node the root of a subtree with another parent. -/
theorem Holds.reparent (h : Holds T t par) (hnil : T.nil ∉ addrs t) (hnd : (addrs t).Nodup) (q : Ptr) :
    ∃ T', (if ptrOf T.nil t ≠ T.nil then T.setParent (ptrOf T.nil t) q else some T) = some T' ∧
      Holds T' t q ∧ (∀ p ∉ addrs t, T'.mem p = T.mem p) ∧ T'.nil = T.nil ∧ T'.root = T.root ∧ T'.next = T.next := by
  cases t with
  | nil => exact ⟨T, by simp, trivial, fun _ _ => rfl, rfl, rfl, rfl⟩
  | node c l e r =>
    have hmem : e.ptr ∈ addrs (.node c l e r) := by simp [addrs, RBTree.toList]
    have hne : e.ptr ≠ T.nil := fun h' => hnil (h' ▸ hmem)
    have hnd := (addrs_mk (s := .left)).nodup_iff.mp hnd
    rw [List.nodup_cons, List.mem_append, not_or] at hnd
    obtain ⟨he, hl, hr⟩ := h
    have F : Fields T e .left c (ptrOf T.nil l) (ptrOf T.nil r) par := ⟨he⟩
    refine ⟨T.put e.ptr (e.node .left c (ptrOf T.nil l) (ptrOf T.nil r) q), ?_, ⟨put_self, ?_, ?_⟩, ?_, rfl, rfl, rfl⟩
    · exact (if_pos hne).trans (F.setParent q)
    · exact hl.put hnd.1.1
    · exact hr.put hnd.1.2
    · exact fun p hp => put_ne fun h' => hp (h' ▸ hmem)

/-- Making the context point to another subtree. -/
theorem CtxHolds.replaceChild {old : Ptr} (h : CtxHolds T ctx old) (hnil : T.nil ∉ ctxAddrs ctx)
    (hnd : (ctxAddrs ctx).Nodup) (hold : ∀ g ctx', ctx = g :: ctx' → old ≠ ptrOf T.nil g.sibling) (s : Side)
    (new : Ptr) : ∃ T', T.replaceChild s (ctxPtr T.nil ctx) old new = some T' ∧ CtxHolds T' ctx new ∧
      (∀ p ∉ ctxAddrs ctx, T'.mem p = T.mem p) ∧ T'.nil = T.nil ∧ T'.next = T.next := by
  cases ctx with
  | nil => exact ⟨{ T with root := new }, if_pos rfl, rfl, fun _ _ => rfl, rfl, rfl⟩
  | cons g ctx =>
    have hmem : g.item.ptr ∈ ctxAddrs (g :: ctx) := ctxAddrs_cons.mem_iff.mpr List.mem_cons_self
    have hne : g.item.ptr ≠ T.nil := fun h' => hnil (h' ▸ hmem)
    rw [ctxAddrs_cons.nodup_iff, List.nodup_cons, List.mem_append, not_or] at hnd
    obtain ⟨hg, hsib, hctx⟩ := h
    have F : Fields T g.item g.side g.color old (ptrOf T.nil g.sibling) (ctxPtr T.nil ctx) := ⟨hg⟩
    refine ⟨T.put g.item.ptr (g.item.node g.side g.color new (ptrOf T.nil g.sibling) (ctxPtr T.nil ctx)), ?_,
      ⟨put_self, ?_, ?_⟩, ?_, rfl, rfl⟩
    · rw [Rbtree.replaceChild, ctxPtr_cons, if_neg hne]
      by_cases hs : g.side = s
      · subst hs
        rw [F.near, ← F.setNear new]
        simp
      · obtain rfl := Side.eq_other_of_ne (Ne.symm hs)
        rw [F.far, ← F.setNear new, Side.other_other]
        simp [hold g ctx rfl]
    · exact hsib.put hnd.1.1
    · exact hctx.put hnd.1.2
    · exact fun p hp => put_ne fun h' => hp (h' ▸ hmem)

end Reads

/-! ### Painting -/

/-- What an update within the tree leaves alone: the sentinel, the addresses that were handed out, and the
    entries of the nodes. -/
structure Kept (T T' : Rbtree) : Prop where
  nil : T'.nil = T.nil
  next : T'.next = T.next
  sentinel : T'.mem T.nil = T.mem T.nil
  key : ∀ p, T'.key p = T.key p
  value : ∀ p, T'.value p = T.value p

theorem Kept.refl (T : Rbtree) : Kept T T := ⟨rfl, rfl, rfl, fun _ => rfl, fun _ => rfl⟩

theorem Kept.trans {T T' T'' : Rbtree} (h : Kept T T') (h' : Kept T' T'') : Kept T T'' where
  nil := h'.nil.trans h.nil
  next := h'.next.trans h.next
  sentinel := by
    have := h'.sentinel
    rw [h.nil] at this
    exact this.trans h.sentinel
  key p := (h'.key p).trans (h.key p)
  value p := (h'.value p).trans (h.value p)

theorem Kept.parent {T T' : Rbtree} (h : Kept T T') : T'.parent T'.nil = T.parent T.nil := by
  simp only [Rbtree.parent, h.nil, h.sentinel]

theorem Holds.entry {T : Rbtree} {t : RBTree Cell} {par : Ptr} (h : Holds T t par) : ∀ e ∈ t.toList,
    T.key e.ptr = some e.key ∧ T.value e.ptr = some e.value := by
  induction t generalizing par with
  | nil => simp [RBTree.toList]
  | node c l e r ihl ihr =>
    obtain ⟨he, hl, hr⟩ := h
    have F : Fields T e .left c (ptrOf T.nil l) (ptrOf T.nil r) par := ⟨he⟩
    intro a ha
    rcases List.mem_append.mp ha with ha | ha
    · exact ihl hl a ha
    rcases List.mem_cons.mp ha with rfl | ha
    · exact ⟨F.key, F.value⟩
    · exact ihr hr a ha

namespace Rep
variable {T T' : Rbtree} {s : Side} {c : Color} {n f t t' : RBTree Cell} {e : Cell} {ctx : Ctx Cell}

/-- An update of nodes of the tree that keeps the in-order list needs to be checked for the links only. -/
theorem of_linked (h : Rep T t) (hnil : T'.nil = T.nil) (hnext : T'.next = T.next)
    (hm : ∀ p ∉ addrs t, T'.mem p = T.mem p) (hl : Linked T' t') (ht : t'.toList = t.toList) :
    Rep T' t' ∧ Kept T T' := by
  have haddrs : addrs t' = addrs t := addrs_eq ht
  have hsent : T'.mem T.nil = T.mem T.nil := hm _ fun hp => (h.live _ hp).1 rfl
  have hentry : ∀ p, T'.key p = T.key p ∧ T'.value p = T.value p := by
    intro p
    by_cases hp : p ∈ addrs t
    · obtain ⟨e, he, rfl⟩ := List.mem_map.mp hp
      obtain ⟨hk, hv⟩ := h.linked.1.entry e he
      obtain ⟨hk', hv'⟩ := hl.1.entry e (ht ▸ he)
      exact ⟨hk'.trans hk.symm, hv'.trans hv.symm⟩
    · simp only [Rbtree.key, Rbtree.value, hm p hp, and_self]
  refine ⟨⟨hl, haddrs ▸ h.nodup, ?_, ?_, ?_⟩, hnil, hnext, hsent, fun p => (hentry p).1, fun p => (hentry p).2⟩
  · intro p hp
    rw [hnil, hnext]
    exact h.live p (haddrs ▸ hp)
  · have := h.sentinel
    simp only [Rbtree.color] at this ⊢
    rw [hnil, hsent]
    exact this
  · rw [hnil, hnext]
    exact h.nilLt

theorem live_plug (h : Rep T (plug ctx t)) {p : Ptr} (hp : p ∈ addrs t ∨ p ∈ ctxAddrs ctx) : p ≠ T.nil ∧ p < T.next :=
  h.live p ((addrs_plug _ _).mem_iff.mpr (List.mem_append.mpr hp))

theorem live_mk (h : Rep T (plug ctx (.mk s c n e f))) : e.ptr ≠ T.nil ∧ e.ptr < T.next :=
  h.live_plug (Or.inl (addrs_mk.mem_iff.mpr List.mem_cons_self))

theorem root_ne_nil (h : Rep T (plug ctx t)) (ht : t ≠ .nil) : ptrOf T.nil t ≠ T.nil :=
  (h.live_plug (Or.inl (ptrOf_mem T.nil ht))).1

section Children
variable {l r : RBTree Cell}

theorem left_ne_nil (h : Rep T (plug ctx (.node c l e r))) (hl : l ≠ .nil) : ptrOf T.nil l ≠ T.nil := by
  have hleft : Rep T (plug (⟨.left, c, e, r⟩ :: ctx) l) := h
  exact hleft.root_ne_nil hl

theorem right_ne_nil (h : Rep T (plug ctx (.node c l e r))) (hr : r ≠ .nil) : ptrOf T.nil r ≠ T.nil := by
  have hright : Rep T (plug (⟨.right, c, e, l⟩ :: ctx) r) := h
  exact hright.root_ne_nil hr

end Children

/-- Fewer nodes than addresses: the walks do not run out of fuel. -/
theorem length_lt (h : Rep T t) : t.toList.length < T.next := by
  have hnd : (T.nil :: addrs t).Nodup := List.nodup_cons.mpr ⟨fun hm => (h.live _ hm).1 rfl, h.nodup⟩
  have hsub : T.nil :: addrs t ⊆ List.range T.next := by
    intro p hp
    rw [List.mem_range]
    rcases List.mem_cons.mp hp with rfl | hp
    · exact h.nilLt
    · exact (h.live p hp).2
  have hle := (List.subperm_of_subset hnd hsub).length_le
  simp only [addrs, List.length_cons, List.length_map, List.length_range] at hle
  omega

/-- The address of a node is not the address of a node below it or above it. -/
theorem apart (h : Rep T (plug ctx (.mk s c n e f))) :
    (e.ptr ∉ addrs n ∧ e.ptr ∉ addrs f ∧ e.ptr ∉ ctxAddrs ctx) ∧
      ((addrs n).Disjoint (addrs f) ∧ (addrs n).Disjoint (ctxAddrs ctx) ∧ (addrs f).Disjoint (ctxAddrs ctx)) := by
  have hnd := ((addrs_plug _ _).trans (addrs_mk.append_right (ctxAddrs ctx))).nodup_iff.mp h.nodup
  rw [List.cons_append, List.append_assoc, List.nodup_cons, List.nodup_append', List.nodup_append'] at hnd
  obtain ⟨hout, -, ⟨-, -, hfx⟩, hnfx⟩ := hnd
  simp only [List.mem_append, not_or] at hout
  rw [List.disjoint_append_right] at hnfx
  exact ⟨hout, hnfx.1, hnfx.2, hfx⟩

theorem fields (h : Rep T (plug ctx (.mk s c n e f))) :
    Fields T e s c (ptrOf T.nil n) (ptrOf T.nil f) (ctxPtr T.nil ctx) := h.linked.fields

theorem frame {g : Frame Cell} (h : Rep T (plug (g :: ctx) t)) :
    Fields T g.item g.side g.color (ptrOf T.nil t) (ptrOf T.nil g.sibling) (ctxPtr T.nil ctx) := h.linked.frame

/-- The color of a subtree is that of its root; the sentinel is black. -/
theorem color_ptrOf (h : Rep T (plug ctx t)) : T.color (ptrOf T.nil t) = some t.rootColor := by
  cases t with
  | nil => exact h.sentinel
  | node c l e r => exact (h.fields (s := .left)).color

theorem color_ctxPtr (h : Rep T (plug ctx t)) : T.color (ctxPtr T.nil ctx) = some ctx.color := by
  cases ctx with
  | nil => exact h.sentinel
  | cons g ctx => exact h.frame.color

/-- The parent pointer of a subtree, when that of the sentinel is in place too. -/
theorem parent_ptrOf (h : Rep T (plug ctx t)) (hnil : t = .nil → T.parent T.nil = some (ctxPtr T.nil ctx)) :
    T.parent (ptrOf T.nil t) = some (ctxPtr T.nil ctx) := by
  cases t with
  | nil => exact hnil rfl
  | node c l e r => exact (h.fields (s := .left)).parent

theorem item_mem (ctx : Ctx Cell) (s : Side) (c : Color) (n f : RBTree Cell) (e : Cell) :
    e.ptr ∈ addrs (plug ctx (.mk s c n e f)) :=
  (addrs_plug _ _).mem_iff.mpr (List.mem_append_left _ (addrs_mk.mem_iff.mpr List.mem_cons_self))

theorem setColor (h : Rep T (plug ctx (.mk s c n e f))) (c' : Color) :
    ∃ T', T.setColor e.ptr c' = some T' ∧ Rep T' (plug ctx (.mk s c' n e f)) ∧ Kept T T' := by
  obtain ⟨⟨hn, hf, hx⟩, -⟩ := h.apart
  obtain ⟨hmk, hctx⟩ := linked_plug.mp h.linked
  obtain ⟨-, hn', hf'⟩ := holds_mk.mp hmk
  refine ⟨_, h.fields.setColor c', h.of_linked rfl rfl ?_ (linked_plug.mpr ⟨holds_mk.mpr ⟨put_self, ?_, ?_⟩, ?_⟩) ?_⟩
  · exact fun p hp => put_ne fun h' => hp (h' ▸ item_mem ctx s c n f e)
  · exact hn'.put hn
  · exact hf'.put hf
  · exact hctx.put hx
  · exact toList_plug_congr ctx (by simp [RBTree.toList_mk])

/-- Painting the root of a subtree, which is not empty. -/
theorem setColor_ptrOf (h : Rep T (plug ctx t)) (ht : t ≠ .nil) (c' : Color) :
    ∃ T', T.setColor (ptrOf T.nil t) c' = some T' ∧ Rep T' (plug ctx (t.setColor c')) ∧ Kept T T' := by
  obtain ⟨c, n, e, f, rfl⟩ := RBTree.exists_mk .left ht
  exact h.setColor c'

end Rep

/-! ### Rotation -/

theorem plug_far {ctx : Ctx Cell} {s : Side} {c : Color} {n f : RBTree Cell} {e : Cell} :
    plug ctx (.mk s c n e f) = plug (⟨s.other, c, e, n⟩ :: ctx) f := by simp [plug]

namespace Rep
variable {T : Rbtree} {s : Side} {t : RBTree Cell} {ctx : Ctx Cell}

theorem sentinel_out (h : Rep T (plug ctx t)) : T.nil ∉ addrs t ∧ T.nil ∉ ctxAddrs ctx :=
  ⟨fun hm => (h.live_plug (Or.inl hm)).1 rfl, fun hm => (h.live_plug (Or.inr hm)).1 rfl⟩

theorem nodup_plug (h : Rep T (plug ctx t)) :
    (addrs t).Nodup ∧ (ctxAddrs ctx).Nodup ∧ (addrs t).Disjoint (ctxAddrs ctx) :=
  List.nodup_append'.mp ((addrs_plug _ _).nodup_iff.mp h.nodup)

/-- The subtree in focus is not the sibling of the first frame, unless both are empty. -/
theorem ptrOf_ne_sibling {g : Frame Cell} (h : Rep T (plug (g :: ctx) t)) (ht : t ≠ .nil ∨ g.sibling ≠ .nil) :
    ptrOf T.nil t ≠ ptrOf T.nil g.sibling := by
  have hd := (apart (s := g.side) (c := g.color) h).2.1
  intro heq
  by_cases hn : t = .nil
  · have hs : g.sibling ≠ .nil := ht.resolve_left (fun h' => h' hn)
    have := h.sentinel_out.2
    rw [ctxAddrs_cons.mem_iff] at this
    rw [hn, ptrOf_nil] at heq
    exact this (List.mem_cons_of_mem _ (List.mem_append_left _ (heq.symm ▸ ptrOf_mem T.nil hs)))
  · have hm := ptrOf_mem T.nil hn
    by_cases hs : g.sibling = .nil
    · rw [heq, hs] at hm
      exact h.sentinel_out.1 hm
    · exact hd hm (heq ▸ ptrOf_mem T.nil hs)

theorem ptrOf_plug_mem {nil : Ptr} {f : Frame Cell} {ctx : Ctx Cell} {t : RBTree Cell} :
    ptrOf nil (plug (f :: ctx) t) ∈ ctxAddrs (f :: ctx) := by
  induction ctx generalizing f t with
  | nil => exact ctxAddrs_cons.mem_iff.mpr List.mem_cons_self
  | cons g ctx ih =>
    refine ctxAddrs_cons.mem_iff.mpr (List.mem_cons_of_mem _ (List.mem_append_right _ ?_))
    exact ih

/-- A subtree below the root is not the root. -/
theorem ptrOf_ne_root {g : Frame Cell} (h : Rep T (plug (g :: ctx) t)) : ptrOf T.nil t ≠ T.root := by
  intro heq
  have hmem : T.root ∈ ctxAddrs (g :: ctx) := h.linked.root ▸ ptrOf_plug_mem
  by_cases ht : t = .nil
  · rw [ht, ptrOf_nil] at heq
    exact h.sentinel_out.2 (heq ▸ hmem)
  · exact h.nodup_plug.2.2 (ptrOf_mem T.nil ht) (heq ▸ hmem)

/-- `rbtree_left_rotate` and `rbtree_right_rotate` bring the far child above its parent. -/
theorem rotate {cx cy : Color} {a b c : RBTree Cell} {x y : Cell} (h : Rep T (plug ctx (.mk s cx a x (.mk s cy b y c)))) :
    ∃ T', rbtreeRotate s T x.ptr = some T' ∧ Rep T' (plug ctx (.mk s cy (.mk s cx a x b) y c)) ∧ Kept T T' := by
  have hY : Rep T (plug (⟨s.other, cx, x, a⟩ :: ctx) (.mk s cy b y c)) := plug_far ▸ h
  obtain ⟨⟨hxa, hxY, hxX⟩, haY, haX, hYX⟩ := h.apart
  obtain ⟨⟨hyb, hyc, hyctx⟩, hbc, hbctx, hcctx⟩ := hY.apart
  -- The nodes below `y` are none of `x`, `y` and the nodes below `x` or above it.
  have hmY : ∀ {q}, q = y.ptr ∨ q ∈ addrs b ∨ q ∈ addrs c → q ∈ addrs (.mk s cy b y c) := fun hq =>
    addrs_mk.mem_iff.mpr (by simpa using hq)
  have hxy : x.ptr ≠ y.ptr := fun hq => hxY (hmY (Or.inl hq))
  have hya : y.ptr ∉ addrs a := fun hq => haY hq (hmY (Or.inl rfl))
  have hyX : y.ptr ∉ ctxAddrs ctx := fun hq => hYX (hmY (Or.inl rfl)) hq
  obtain ⟨hmem, hctx⟩ := linked_plug.mp h.linked
  obtain ⟨hx, ha, hy'⟩ := holds_mk.mp hmem
  obtain ⟨hy, hb, hc⟩ := holds_mk.mp hy'
  have Fx : Fields T x s cx (ptrOf T.nil a) y.ptr (ctxPtr T.nil ctx) := ⟨hx⟩
  have Fy : Fields T y s cy (ptrOf T.nil b) (ptrOf T.nil c) x.ptr := ⟨hy⟩
  -- `x->right = y->left`
  set T₁ := T.put x.ptr (x.node s cx (ptrOf T.nil a) (ptrOf T.nil b) (ctxPtr T.nil ctx)) with hT₁
  have hb₁ : Holds T₁ b y.ptr := hb.put fun hq => hxY (hmY (Or.inr (Or.inl hq)))
  have hbnd : (addrs b).Nodup := ((List.nodup_append'.mp
    (List.nodup_cons.mp (addrs_mk.nodup_iff.mp hY.nodup_plug.1)).2)).1
  -- `y->left->parent = x`
  obtain ⟨T₂, hT₂, hb₂, hm₂, hnil₂, hroot₂, hnext₂⟩ :=
    hb₁.reparent (fun hq => hY.sentinel_out.1 (hmY (Or.inr (Or.inl hq)))) hbnd x.ptr
  have hx₂ : T₂.mem x.ptr = some (x.node s cx (ptrOf T.nil a) (ptrOf T.nil b) (ctxPtr T.nil ctx)) := by
    rw [hm₂ _ fun hq => hxY (hmY (Or.inr (Or.inl hq)))]
    exact put_self
  have hy₂ : T₂.mem y.ptr = some (y.node s cy (ptrOf T.nil b) (ptrOf T.nil c) x.ptr) := by
    rw [hm₂ _ hyb, hT₁, put_ne hxy.symm]
    exact hy
  have Fx₂ : Fields T₂ x s cx (ptrOf T.nil a) (ptrOf T.nil b) (ctxPtr T.nil ctx) := ⟨hx₂⟩
  have Fy₂ : Fields T₂ y s cy (ptrOf T.nil b) (ptrOf T.nil c) x.ptr := ⟨hy₂⟩
  -- `y->parent = x->parent`
  set T₃ := T₂.put y.ptr (y.node s cy (ptrOf T.nil b) (ptrOf T.nil c) (ctxPtr T.nil ctx)) with hT₃
  have hnil₃ : T₃.nil = T.nil := hnil₂
  have hctx₃ : CtxHolds T₃ ctx x.ptr := by
    refine hctx.congr hnil₃ hroot₂ fun q hq => ?_
    have hqy : q ≠ y.ptr := fun h' => hyX (h' ▸ hq)
    have hqx : q ≠ x.ptr := fun h' => hxX (h' ▸ hq)
    have hqb : q ∉ addrs b := fun h' => hYX (hmY (Or.inr (Or.inl h'))) hq
    rw [hT₃, put_ne hqy, hm₂ _ hqb, hT₁, put_ne hqx]
  -- the link from above
  obtain ⟨T₄, hT₄, hctx₄, hm₄, hnil₄, hnext₄⟩ := hctx₃.replaceChild (hnil₃ ▸ h.sentinel_out.2) h.nodup_plug.2.1
    (by
      rintro g ctx' rfl
      rw [hnil₃]
      exact h.ptrOf_ne_sibling (Or.inl RBTree.mk_ne_nil)) s y.ptr
  rw [hnil₃] at hT₄ hnil₄
  have hm₄' : ∀ q ∉ ctxAddrs ctx, q ≠ y.ptr → T₄.mem q = T₂.mem q := fun q hq hqy => by
    rw [hm₄ _ hq, hT₃, put_ne hqy]
  have Fy₄ : Fields T₄ y s cy (ptrOf T.nil b) (ptrOf T.nil c) (ctxPtr T.nil ctx) := ⟨by
    rw [hm₄ _ hyX]
    exact put_self⟩
  have Fx₄ : Fields T₄ x s cx (ptrOf T.nil a) (ptrOf T.nil b) (ctxPtr T.nil ctx) := ⟨(hm₄' _ hxX hxy).trans hx₂⟩
  -- `y->left = x` and `x->parent = y`
  set T₅ := T₄.put y.ptr (y.node s cy x.ptr (ptrOf T.nil c) (ctxPtr T.nil ctx)) with hT₅
  have Fx₅ : Fields T₅ x s cx (ptrOf T.nil a) (ptrOf T.nil b) (ctxPtr T.nil ctx) := ⟨(put_ne hxy).trans Fx₄.mem⟩
  set T₆ := T₅.put x.ptr (x.node s cx (ptrOf T.nil a) (ptrOf T.nil b) y.ptr) with hT₆
  have hnil₆ : T₆.nil = T.nil := hnil₄
  have hm₆ : ∀ q, q ≠ x.ptr → q ≠ y.ptr → T₆.mem q = T₄.mem q := fun q hqx hqy => by
    rw [hT₆, put_ne hqx, hT₅, put_ne hqy]
  have hrun : rbtreeRotate s T x.ptr = some T₆ := by
    have hT₂' : (if ptrOf T.nil b ≠ T₁.nil then T₁.setParent (ptrOf T.nil b) x.ptr else some T₁) = some T₂ := hT₂
    simp only [rbtreeRotate, Option.bind_eq_bind]
    rw [Fx.far, Option.bind_some, Fy.near, Option.bind_some, Fx.setFar, Option.bind_some, ← hT₁, hT₂',
      Option.bind_some, Fx₂.parent, Option.bind_some, Fy₂.setParent, Option.bind_some, ← hT₃, hT₄,
      Option.bind_some, Fy₄.setNear, Option.bind_some, ← hT₅, Fx₅.setParent]
  have hout : ∀ q ∉ addrs (plug ctx (.mk s cx a x (.mk s cy b y c))), T₆.mem q = T.mem q := by
    intro q hq
    have hqY : q ∉ addrs (.mk s cy b y c) := fun h' => hq ((addrs_plug _ _).mem_iff.mpr
      (List.mem_append_left _ (addrs_mk.mem_iff.mpr (List.mem_cons_of_mem _ (List.mem_append_right _ h')))))
    have hqx : q ≠ x.ptr := fun h' => hq (h' ▸ item_mem ctx s cx a _ x)
    have hqy : q ≠ y.ptr := fun h' => hqY (hmY (Or.inl h'))
    have hqX : q ∉ ctxAddrs ctx := fun h' => hq ((addrs_plug _ _).mem_iff.mpr (List.mem_append_right _ h'))
    rw [hm₆ _ hqx hqy, hm₄' _ hqX hqy, hm₂ _ fun h' => hqY (hmY (Or.inr (Or.inl h'))), hT₁, put_ne hqx]
  refine ⟨T₆, hrun, h.of_linked hnil₆ (hnext₄.trans hnext₂) hout
    (linked_plug.mpr ⟨holds_mk.mpr ⟨?_, holds_mk.mpr ⟨?_, ?_, ?_⟩, ?_⟩, ?_⟩) ?_⟩
  · rw [hT₆, put_ne hxy.symm, hT₅, put_self, ← hT₅, ← hT₆, hnil₆, ptrOf_mk]
  · rw [hT₆, put_self, ← hT₆, hnil₆]
  · refine ha.congr hnil₆ fun q hq => ?_
    have hqx : q ≠ x.ptr := fun h' => hxa (h' ▸ hq)
    have hqy : q ≠ y.ptr := fun h' => hya (h' ▸ hq)
    rw [hm₆ _ hqx hqy, hm₄' _ (fun h' => haX hq h') hqy, hm₂ _ fun h' => haY hq (hmY (Or.inr (Or.inl h'))), hT₁,
      put_ne hqx]
  · refine hb₂.congr (hnil₆.trans hnil₂.symm) fun q hq => ?_
    have hqY := hmY (Or.inr (Or.inl hq))
    have hqx : q ≠ x.ptr := fun h' => hxY (h' ▸ hqY)
    have hqy : q ≠ y.ptr := fun h' => hyb (h' ▸ hq)
    rw [hm₆ _ hqx hqy, hm₄' _ (fun h' => hYX hqY h') hqy]
  · refine hc.congr hnil₆ fun q hq => ?_
    have hqY := hmY (Or.inr (Or.inr hq))
    have hqx : q ≠ x.ptr := fun h' => hxY (h' ▸ hqY)
    have hqy : q ≠ y.ptr := fun h' => hyc (h' ▸ hq)
    rw [hm₆ _ hqx hqy, hm₄' _ (fun h' => hYX hqY h') hqy, hm₂ _ fun h' => hbc h' hq, hT₁, put_ne hqx]
  · refine hctx₄.congr (hnil₆.trans hnil₄.symm) rfl fun q hq => ?_
    exact hm₆ _ (fun h' => hxX (h' ▸ hq)) fun h' => hyX (h' ▸ hq)
  · exact toList_plug_congr ctx (by simp [RBTree.toList_mk, Side.cat_assoc])

end Rep

end KvStore
