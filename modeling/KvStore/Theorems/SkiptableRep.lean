import KvStore.Lib.LinkedList
import KvStore.Skiptable
import Mathlib.Data.List.Perm.Subperm

/-! # What the memory of a skip list holds

`SkipRep T L` says that the memory holds the nodes `L`: level `i` links the nodes of `L` that reach that level, in
the order of `L`. A search for a key walks to the last node before it, on every level. -/

namespace KvStore
open LinkedList

/-- A node at its address; `level` is the highest level that it is linked in. -/
structure SkipCell where
  ptr : Ptr
  key : CString
  value : CString
  timestamp : UInt64
  level : Nat

namespace SkipCell

def node (c : SkipCell) : SkipNode := ⟨c.key, c.value, some c.timestamp, c.level + 1⟩

def entry (c : SkipCell) : CString × CharPtr × UInt64 := (c.key, .str c.value, c.timestamp)

end SkipCell

/-- The addresses of the nodes that reach level `i`. -/
def reach (i : Nat) (L : List SkipCell) : List Ptr := (L.filter fun c => i ≤ c.level).map SkipCell.ptr

/-- Level `i` links the nodes that reach it. -/
def LinkedAt (T : Skiptable) (L : List SkipCell) (i : Nat) : Prop :=
  Links (fun p => T.forward p i) 0 T.header (reach i L)

structure SkipRep (T : Skiptable) (L : List SkipCell) : Prop where
  header : ∃ n, T.nodes T.header = some n ∧ n.slots = maxLevel + 1
  nodes : ∀ c ∈ L, T.nodes c.ptr = some c.node
  distinct : (T.header :: L.map SkipCell.ptr).Nodup
  live : ∀ p ∈ T.header :: L.map SkipCell.ptr, p ≠ 0 ∧ p < T.next
  levels : ∀ c ∈ L, 1 ≤ c.level ∧ c.level ≤ T.level
  levelMax : T.level ≤ maxLevel
  linked : ∀ i ≤ maxLevel, LinkedAt T L i

section Reach
variable {i j : Nat} {L l₁ l₂ : List SkipCell} {c : SkipCell} {p : Ptr}

theorem reach_append : reach i (l₁ ++ l₂) = reach i l₁ ++ reach i l₂ := by
  simp [reach]

theorem reach_cons_of_le (h : i ≤ c.level) : reach i (c :: L) = c.ptr :: reach i L := by
  simp [reach, h]

theorem reach_cons_of_lt (h : c.level < i) : reach i (c :: L) = reach i L := by
  simp [reach, h]

theorem reach_sublist : (reach i L).Sublist (L.map SkipCell.ptr) := List.filter_sublist.map _

theorem reach_mono (h : i ≤ j) : (reach j L).Sublist (reach i L) := by
  refine List.Sublist.map _ ?_
  refine List.monotone_filter_right L fun c hc => ?_
  simp only [decide_eq_true_eq] at hc ⊢
  exact le_trans h hc

theorem reach_eq_nil (h : ∀ c ∈ L, c.level < i) : reach i L = [] := by
  simpa [reach] using h

theorem mem_reach : p ∈ reach i L ↔ ∃ c ∈ L, i ≤ c.level ∧ c.ptr = p := by
  simp [reach, and_assoc]

end Reach

namespace SkipRep
variable {T : Skiptable} {L l₁ l₂ : List SkipCell} {c : SkipCell} {i : Nat} {p : Ptr} {key : List UInt8}

theorem length_lt (h : SkipRep T L) : L.length < T.next := by
  have hsub : (T.header :: L.map SkipCell.ptr) ⊆ List.range T.next := fun p hp => List.mem_range.mpr (h.live p hp).2
  have hle := (List.subperm_of_subset h.distinct hsub).length_le
  rw [List.length_cons, List.length_map, List.length_range] at hle
  exact hle

/-- The nodes of a level are distinct. -/
theorem nodup_reach (h : SkipRep T L) : (T.header :: reach i L).Nodup :=
  h.distinct.sublist (reach_sublist.cons_cons _)

end SkipRep

/-- The comparison of a stored key with the key of a call reads only what it may, and finds `k`. -/
def Reads (key : List UInt8) (k : CString) (L : List SkipCell) : Prop :=
  ∀ c ∈ L, strcmpBuf c.key key = some (strcmp c.key k)

/-- The nodes before `k` and those behind. -/
def Cut (k : CString) (l₁ l₂ : List SkipCell) : Prop := (∀ c ∈ l₁, c.key < k) ∧ ∀ c ∈ l₂, k ≤ c.key

/-- Where a search leaves level `i`. -/
def lastAt (T : Skiptable) (i : Nat) (l₁ : List SkipCell) : Ptr := (reach i l₁).getLastD T.header

section Search
variable {T : Skiptable} {L l₁ l₂ : List SkipCell} {c : SkipCell} {i : Nat} {p : Ptr} {key : List UInt8} {k : CString}

/-- The inner loop, from a node behind which the level links `xs` and `ys`. -/
theorem skipWalk_eq {xs ys : List Ptr} {fuel : Nat} (hfuel : xs.length < fuel)
    (hlinks : Links (fun p => T.forward p i) 0 p (xs ++ ys)) (hne : ∀ q ∈ xs ++ ys, q ≠ 0)
    (hxs : ∀ q ∈ xs, ∃ n d, T.nodes q = some n ∧ strcmpBuf n.key key = some d ∧ d < 0)
    (hys : ∀ q ∈ ys.head?, ∃ n d, T.nodes q = some n ∧ strcmpBuf n.key key = some d ∧ 0 ≤ d) :
    skipWalk T key i fuel p = some (xs.getLastD p) := by
  induction xs generalizing p fuel with
  | nil =>
    obtain ⟨fuel, rfl⟩ := Nat.exists_eq_succ_of_ne_zero (Nat.pos_iff_ne_zero.mp hfuel)
    cases ys with
    | nil =>
      have hp : T.forward p i = some 0 := hlinks
      simp [skipWalk, hp]
    | cons y ys =>
      have hp : T.forward p i = some y := hlinks.1
      obtain ⟨n, d, hn, hd, hle⟩ := hys y List.head?_cons
      simp [skipWalk, hp, hne y, hn, hd, not_lt.mpr hle]
  | cons x xs ih =>
    obtain ⟨fuel, rfl⟩ := Nat.exists_eq_succ_of_ne_zero (Nat.ne_zero_of_lt hfuel)
    obtain ⟨hp, hlinks⟩ := hlinks
    obtain ⟨n, d, hn, hd, hlt⟩ := hxs x List.mem_cons_self
    have hrest := ih (Nat.lt_of_succ_lt_succ hfuel) hlinks (fun q hq => hne q (List.mem_cons_of_mem x hq))
      fun q hq => hxs q (List.mem_cons_of_mem x hq)
    simp only at hp
    rw [List.getLastD_cons, ← hrest]
    simp [skipWalk, hp, hne x, hn, hd, hlt]

/-- What the level links behind any node that it has before `l₂`. -/
theorem SkipRep.linksFrom (h : SkipRep T (l₁ ++ l₂)) (hi : i ≤ maxLevel) (hp : p ∈ T.header :: reach i l₁) :
    ∃ xs, Links (fun p => T.forward p i) 0 p (xs ++ reach i l₂) ∧ xs ⊆ reach i l₁ ∧ xs.length < T.fuel ∧
      xs.getLastD p = lastAt T i l₁ := by
  have hlinks := h.linked i hi
  rw [LinkedAt, reach_append] at hlinks
  have hlen : (reach i l₁).length < T.fuel := by
    have hsub := (reach_sublist (i := i) (L := l₁)).length_le
    have hlt := h.length_lt
    rw [List.length_map] at hsub
    rw [List.length_append] at hlt
    rw [Skiptable.fuel]
    omega
  rcases List.mem_cons.mp hp with rfl | hp
  · exact ⟨reach i l₁, hlinks, fun _ hq => hq, hlen, rfl⟩
  · obtain ⟨xs, ys, hxy⟩ := List.append_of_mem hp
    have hsplit : xs ++ p :: ys = (xs ++ [p]) ++ ys := by simp
    rw [hxy, hsplit, List.append_assoc] at hlinks
    have hlinks := hlinks.drop
    rw [List.getLastD_concat] at hlinks
    rw [hxy, List.length_append, List.length_cons] at hlen
    refine ⟨ys, hlinks, fun q hq => ?_, ?_, ?_⟩
    · rw [hxy]
      exact List.mem_append_right xs (List.mem_cons_of_mem p hq)
    · omega
    · rw [lastAt, hxy, getLastD_append, List.getLastD_cons]

theorem SkipRep.reach_ne_zero (h : SkipRep T L) {q : Ptr} (hq : q ∈ reach i L) : q ≠ 0 :=
  (h.live q (List.mem_cons_of_mem _ (reach_sublist.subset hq))).1

/-- A node that reaches level `i`, and what the search sees of it. -/
theorem SkipRep.node_reach (h : SkipRep T L) {l : List SkipCell} (hsub : l ⊆ L) {q : Ptr} (hq : q ∈ reach i l) :
    ∃ c ∈ l, T.nodes q = some c.node := by
  obtain ⟨c, hc, -, rfl⟩ := mem_reach.mp hq
  exact ⟨c, hc, h.nodes c (hsub hc)⟩

/-- The inner loop on level `i`, from any node of the level before `k`. -/
theorem SkipRep.walk (h : SkipRep T (l₁ ++ l₂)) (hcut : Cut k l₁ l₂) (hr : Reads key k (l₁ ++ l₂)) (hi : i ≤ maxLevel)
    (hp : p ∈ T.header :: reach i l₁) : skipWalk T key i T.fuel p = some (lastAt T i l₁) := by
  obtain ⟨xs, hlinks, hsub, hlen, hlast⟩ := h.linksFrom hi hp
  rw [← hlast]
  refine skipWalk_eq hlen hlinks ?_ ?_ ?_
  · intro q hq
    refine h.reach_ne_zero (i := i) ?_
    rw [reach_append]
    rcases List.mem_append.mp hq with hq | hq
    · exact List.mem_append_left _ (hsub hq)
    · exact List.mem_append_right _ hq
  · intro q hq
    obtain ⟨c, hc, hn⟩ := h.node_reach (List.subset_append_left l₁ l₂) (hsub hq)
    exact ⟨_, _, hn, hr c (List.mem_append_left l₂ hc), strcmp_neg.mpr (hcut.1 c hc)⟩
  · intro q hq
    obtain ⟨c, hc, hn⟩ := h.node_reach (List.subset_append_right l₁ l₂) (List.mem_of_mem_head? hq)
    exact ⟨_, _, hn, hr c (List.mem_append_right l₁ hc), strcmp_nonneg.mpr (hcut.2 c hc)⟩

/-- The outer loop: it ends at the last node before `k`, and has noted the last one on each level. -/
theorem SkipRep.searchLoop (h : SkipRep T (l₁ ++ l₂)) (hcut : Cut k l₁ l₂) (hr : Reads key k (l₁ ++ l₂)) :
    ∀ {n : Nat} {p : Ptr} {update : List Ptr}, n ≤ maxLevel → p ∈ T.header :: reach n l₁ →
      skipSearch T key (n + 1) p update =
        some (lastAt T 0 l₁, (List.range (n + 1)).map (fun i => lastAt T i l₁) ++ update)
  | 0, p, update, _, hp => by
    rw [skipSearch, h.walk hcut hr (Nat.zero_le _) hp]
    rfl
  | n + 1, p, update, hn, hp => by
    have hlast : lastAt T (n + 1) l₁ ∈ T.header :: reach n l₁ :=
      List.cons_subset_cons T.header (reach_mono (Nat.le_succ n)).subset List.getLastD_mem_cons
    rw [skipSearch, h.walk hcut hr hn hp, Option.bind_eq_bind, Option.bind_some,
      h.searchLoop hcut hr (Nat.le_of_succ_le hn) hlast, List.range_succ (n := n + 1)]
    simp

/-- What a search notes: the last node before `k` on each level of the table. -/
def updates (T : Skiptable) (l₁ : List SkipCell) : List Ptr := (List.range (T.level + 1)).map fun i => lastAt T i l₁

theorem SkipRep.search (h : SkipRep T (l₁ ++ l₂)) (hcut : Cut k l₁ l₂) (hr : Reads key k (l₁ ++ l₂)) :
    skipSearch T key (T.level + 1) T.header [] = some (lastAt T 0 l₁, updates T l₁) := by
  rw [h.searchLoop hcut hr h.levelMax List.mem_cons_self, List.append_nil]
  rfl

theorem reach_zero : reach 0 L = L.map SkipCell.ptr := by
  simp [reach]

theorem SkipRep.find_none (h : SkipRep T (l₁ ++ l₂)) (hcut : Cut k l₁ l₂) (hr : Reads key k (l₁ ++ l₂))
    (hk : ∀ c ∈ l₂, c.key ≠ k) : skipFind T key = some (none, updates T l₁) := by
  have hlinks := h.linked 0 (Nat.zero_le _)
  rw [LinkedAt, reach_append] at hlinks
  have hnext : T.forward (lastAt T 0 l₁) 0 = _ := hlinks.next_last
  rw [skipFind, h.search hcut hr]
  simp only [Option.bind_eq_bind, Option.bind_some]
  rw [hnext, reach_zero, Option.bind_some]
  cases l₂ with
  | nil => rfl
  | cons c l₂ =>
    have hmem : c ∈ l₁ ++ c :: l₂ := by simp
    have hne : c.ptr ≠ 0 := (h.live c.ptr (List.mem_cons_of_mem _ (List.mem_map_of_mem hmem))).1
    have hread := hr c hmem
    simp only [List.map_cons, List.headD_cons, hne, if_false, h.nodes c hmem, Option.bind_some]
    rw [SkipCell.node, hread, Option.bind_some, if_neg (by simpa using hk c List.mem_cons_self)]

theorem SkipRep.find_some (h : SkipRep T (l₁ ++ c :: l₂)) (hcut : Cut k l₁ (c :: l₂))
    (hr : Reads key k (l₁ ++ c :: l₂)) (hk : c.key = k) : skipFind T key = some (some c.ptr, updates T l₁) := by
  have hlinks := h.linked 0 (Nat.zero_le _)
  rw [LinkedAt, reach_append] at hlinks
  have hnext : T.forward (lastAt T 0 l₁) 0 = _ := hlinks.next_last
  have hmem : c ∈ l₁ ++ c :: l₂ := by simp
  have hne : c.ptr ≠ 0 := (h.live c.ptr (List.mem_cons_of_mem _ (List.mem_map_of_mem hmem))).1
  have hread := hr c hmem
  rw [skipFind, h.search hcut hr]
  simp only [Option.bind_eq_bind, Option.bind_some]
  rw [hnext, reach_zero, Option.bind_some]
  simp only [List.map_cons, List.headD_cons, hne, if_false, h.nodes c hmem, Option.bind_some]
  rw [SkipCell.node, hread, Option.bind_some, if_pos (by simpa using hk)]

end Search

end KvStore
