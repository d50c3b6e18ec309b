import Mathlib.Data.List.Basic
import Mathlib.Order.Lattice

/-! # Lists in the order of a comparison

A comparison may call two items equal that are not: an item then stands for its key and carries more with it. A list
is `Sorted` when each item compares less than those behind it. `Splits` says where a key falls into such a list, and
`Window` what a bisection knows of that place. -/

namespace Ordered
open Std

variable {α : Type} (cmp : α → α → Ordering)

def Sorted (l : List α) : Prop := l.Pairwise fun a b => cmp a b = .lt

instance (l : List α) : Decidable (Sorted cmp l) := inferInstanceAs (Decidable (List.Pairwise _ l))

def below (k : α) (l : List α) : List α := l.filter fun a => cmp k a = .gt

def above (k : α) (l : List α) : List α := l.filter fun a => cmp k a = .lt

/-- The item that compares equal to `k`. -/
def lookup (k : α) (l : List α) : Option α := l.find? fun a => cmp k a = .eq

/-- The list with `k` in the place of the item equal to it. -/
def upsert (k : α) (l : List α) : List α := below cmp k l ++ k :: above cmp k l

def erase (k : α) (l : List α) : List α := l.filter fun a => cmp k a ≠ .eq

def atLeast (k : α) (l : List α) : List α := l.filter fun a => cmp k a ≠ .gt

def atMost (k : α) (l : List α) : List α := l.filter fun a => cmp k a ≠ .lt

/-- The key `k` falls into the list at the place `i`: on the item there when it is found, and else in front of it. -/
inductive Splits (k : α) : List α → Nat → Bool → Prop where
  | hit {xs ys : List α} {y : α} : (∀ x ∈ xs, cmp k x = .gt) → cmp k y = .eq → (∀ x ∈ ys, cmp k x = .lt) →
      Splits k (xs ++ y :: ys) xs.length true
  | miss {xs ys : List α} : (∀ x ∈ xs, cmp k x = .gt) → (∀ x ∈ ys, cmp k x = .lt) → Splits k (xs ++ ys) xs.length false

variable {cmp} {k : α} {l l₁ l₂ xs ys : List α} {x y : α} {i j : Nat} {found found' : Bool}

/-! ### Parts of a list on one side of a key -/

theorem below_append : below cmp k (l₁ ++ l₂) = below cmp k l₁ ++ below cmp k l₂ := List.filter_append ..

theorem above_append : above cmp k (l₁ ++ l₂) = above cmp k l₁ ++ above cmp k l₂ := List.filter_append ..

theorem below_of_gt (h : ∀ x ∈ l, cmp k x = .gt) : below cmp k l = l := List.filter_eq_self.mpr (by simpa using h)

theorem below_of_lt (h : ∀ x ∈ l, cmp k x = .lt) : below cmp k l = [] :=
  List.filter_eq_nil_iff.mpr fun x hx => by simp [h x hx]

theorem above_of_gt (h : ∀ x ∈ l, cmp k x = .gt) : above cmp k l = [] :=
  List.filter_eq_nil_iff.mpr fun x hx => by simp [h x hx]

theorem above_of_lt (h : ∀ x ∈ l, cmp k x = .lt) : above cmp k l = l := List.filter_eq_self.mpr (by simpa using h)

theorem lookup_of_gt (h : ∀ x ∈ l, cmp k x = .gt) : lookup cmp k l = none :=
  List.find?_eq_none.mpr fun x hx => by simp [h x hx]

theorem lookup_of_lt (h : ∀ x ∈ l, cmp k x = .lt) : lookup cmp k l = none :=
  List.find?_eq_none.mpr fun x hx => by simp [h x hx]

theorem erase_of_ne (h : ∀ x ∈ l, cmp k x ≠ .eq) : erase cmp k l = l := List.filter_eq_self.mpr (by simpa using h)

theorem lookup_eq_none : lookup cmp k l = none ↔ ∀ x ∈ l, cmp k x ≠ .eq := by simp [lookup]

section Frame
variable (h₁ : ∀ x ∈ l₁, cmp k x = .gt) (h₂ : ∀ x ∈ l₂, cmp k x = .lt)
include h₁ h₂

/-- What lies between smaller and greater items decides what becomes of a key. -/
theorem upsert_frame : upsert cmp k (l₁ ++ (l ++ l₂)) = l₁ ++ (upsert cmp k l ++ l₂) := by
  simp only [upsert, below_append, above_append, below_of_gt h₁, below_of_lt h₂, above_of_gt h₁, above_of_lt h₂,
    List.append_nil, List.nil_append, List.append_assoc, List.cons_append]

theorem lookup_frame : lookup cmp k (l₁ ++ (l ++ l₂)) = lookup cmp k l := by
  have h₁' : l₁.find? (fun a => cmp k a = .eq) = none := lookup_of_gt h₁
  have h₂' : l₂.find? (fun a => cmp k a = .eq) = none := lookup_of_lt h₂
  simp only [lookup, List.find?_append, h₁', h₂', Option.none_or, Option.or_none]

theorem erase_frame : erase cmp k (l₁ ++ (l ++ l₂)) = l₁ ++ (erase cmp k l ++ l₂) := by
  have h₁' : erase cmp k l₁ = l₁ := erase_of_ne fun x hx => by simp [h₁ x hx]
  have h₂' : erase cmp k l₂ = l₂ := erase_of_ne fun x hx => by simp [h₂ x hx]
  simp only [erase, List.filter_append] at h₁' h₂' ⊢
  rw [h₁', h₂']

theorem below_frame : below cmp k (l₁ ++ (l ++ l₂)) = l₁ ++ below cmp k l := by
  rw [below_append, below_append, below_of_gt h₁, below_of_lt h₂, List.append_nil]

theorem atLeast_frame : atLeast cmp k (l₁ ++ (l ++ l₂)) = atLeast cmp k l ++ l₂ := by
  have h₁' : atLeast cmp k l₁ = [] := List.filter_eq_nil_iff.mpr fun x hx => by simp [h₁ x hx]
  have h₂' : atLeast cmp k l₂ = l₂ := List.filter_eq_self.mpr fun x hx => by simp [h₂ x hx]
  simp only [atLeast, List.filter_append] at h₁' h₂' ⊢
  rw [h₁', h₂', List.nil_append]

theorem atMost_frame : atMost cmp k (l₁ ++ (l ++ l₂)) = l₁ ++ atMost cmp k l := by
  have h₁' : atMost cmp k l₁ = l₁ := List.filter_eq_self.mpr fun x hx => by simp [h₁ x hx]
  have h₂' : atMost cmp k l₂ = [] := List.filter_eq_nil_iff.mpr fun x hx => by simp [h₂ x hx]
  simp only [atMost, List.filter_append] at h₁' h₂' ⊢
  rw [h₁', h₂', List.append_nil]

end Frame

/-! ### The place of a key -/

theorem Splits.parts (h : Splits cmp k l i found) :
    (∃ xs y ys, l = xs ++ y :: ys ∧ i = xs.length ∧ found = true ∧ (∀ x ∈ xs, cmp k x = .gt) ∧ cmp k y = .eq ∧
      ∀ x ∈ ys, cmp k x = .lt) ∨
    ∃ xs ys, l = xs ++ ys ∧ i = xs.length ∧ found = false ∧ (∀ x ∈ xs, cmp k x = .gt) ∧ ∀ x ∈ ys, cmp k x = .lt := by
  cases h with
  | hit hx hy hys => exact Or.inl ⟨_, _, _, rfl, rfl, rfl, hx, hy, hys⟩
  | miss hx hys => exact Or.inr ⟨_, _, rfl, rfl, rfl, hx, hys⟩

theorem Splits.le_length (h : Splits cmp k l i found) : i ≤ l.length := by
  cases h <;> simp

variable (hxs : ∀ x ∈ xs, cmp k x = .gt) (hys : ∀ x ∈ ys, cmp k x = .lt)
include hxs hys

theorem upsert_hit (hy : cmp k y = .eq) : upsert cmp k (xs ++ y :: ys) = xs ++ k :: ys := by
  have hone : upsert cmp k [y] = [k] := by simp [upsert, below, above, hy]
  exact (upsert_frame (l := [y]) hxs hys).trans (by rw [hone, List.singleton_append])

theorem lookup_hit (hy : cmp k y = .eq) : lookup cmp k (xs ++ y :: ys) = some y :=
  (lookup_frame (l := [y]) hxs hys).trans (List.find?_cons_of_pos (decide_eq_true hy))

theorem erase_hit (hy : cmp k y = .eq) : erase cmp k (xs ++ y :: ys) = xs ++ ys := by
  have hone : erase cmp k [y] = [] := by simp [erase, hy]
  exact (erase_frame (l := [y]) hxs hys).trans (by rw [hone, List.nil_append])

theorem upsert_miss : upsert cmp k (xs ++ ys) = xs ++ k :: ys := upsert_frame (l := []) hxs hys

theorem lookup_miss : lookup cmp k (xs ++ ys) = none := lookup_frame (l := []) hxs hys

theorem below_hit (hy : cmp k y = .eq) : below cmp k (xs ++ y :: ys) = xs := by
  have hone : below cmp k [y] = [] := by simp [below, hy]
  exact (below_frame (l := [y]) hxs hys).trans (by rw [hone, List.append_nil])

theorem below_miss : below cmp k (xs ++ ys) = xs := (below_frame (l := []) hxs hys).trans (List.append_nil xs)

theorem atLeast_hit (hy : cmp k y = .eq) : atLeast cmp k (xs ++ y :: ys) = y :: ys := by
  have hone : atLeast cmp k [y] = [y] := by simp [atLeast, hy]
  exact (atLeast_frame (l := [y]) hxs hys).trans (by rw [hone, List.singleton_append])

theorem atMost_hit (hy : cmp k y = .eq) : atMost cmp k (xs ++ y :: ys) = xs ++ [y] := by
  have hone : atMost cmp k [y] = [y] := by simp [atMost, hy]
  exact (atMost_frame (l := [y]) hxs hys).trans (by rw [hone])

theorem atLeast_miss : atLeast cmp k (xs ++ ys) = ys := atLeast_frame (l := []) hxs hys

theorem atMost_miss : atMost cmp k (xs ++ ys) = xs := (atMost_frame (l := []) hxs hys).trans (List.append_nil xs)

omit hxs hys

theorem Splits.unique (h : Splits cmp k l i found) (h' : Splits cmp k l j found') : i = j ∧ found = found' := by
  have hplace : ∀ {i found}, Splits cmp k l i found → (below cmp k l).length = i ∧ (lookup cmp k l).isSome = found := by
    rintro _ _ (⟨hx, hy, hys⟩ | ⟨hx, hys⟩)
    · rw [lookup_hit hx hys hy, below_append, below_of_gt hx]
      have hnil := below_of_lt hys
      rw [below] at hnil
      simp [below, hy, hnil]
    · rw [lookup_miss hx hys, below_append, below_of_gt hx, below_of_lt hys, List.append_nil]
      exact ⟨rfl, rfl⟩
  exact ⟨(hplace h).1.symm.trans (hplace h').1, (hplace h).2.symm.trans (hplace h').2⟩

/-! ### Sorted lists -/

theorem Sorted.sublist (h : Sorted cmp l₂) (hsub : l₁.Sublist l₂) : Sorted cmp l₁ := List.Pairwise.sublist hsub h

theorem sorted_append : Sorted cmp (l₁ ++ l₂) ↔
    Sorted cmp l₁ ∧ Sorted cmp l₂ ∧ ∀ a ∈ l₁, ∀ b ∈ l₂, cmp a b = .lt := List.pairwise_append

theorem sorted_cons : Sorted cmp (x :: l) ↔ (∀ b ∈ l, cmp x b = .lt) ∧ Sorted cmp l := List.pairwise_cons

variable [TransCmp cmp]

theorem gt_of_lt_of_gt (h : cmp k y = .gt) (hxy : cmp x y = .lt) : cmp k x = .gt :=
  TransCmp.gt_trans h (OrientedCmp.gt_of_lt hxy)

/-- The items around a place compare with a key as the item there does, or more clearly. -/
theorem Sorted.around (h : Sorted cmp (xs ++ y :: ys)) :
    (cmp k y ≠ .lt → ∀ x ∈ xs, cmp k x = .gt) ∧ (cmp k y ≠ .gt → ∀ x ∈ ys, cmp k x = .lt) := by
  obtain ⟨-, hcons, hcross⟩ := sorted_append.mp h
  have hlt := (sorted_cons.mp hcons).1
  refine ⟨fun hy x hx => ?_, fun hy x hx => ?_⟩
  · have hxy := OrientedCmp.gt_of_lt (hcross x hx y List.mem_cons_self)
    cases hk : cmp k y with
    | lt => exact absurd hk hy
    | eq => exact TransCmp.gt_of_eq_of_gt hk hxy
    | gt => exact TransCmp.gt_trans hk hxy
  · cases hk : cmp k y with
    | lt => exact TransCmp.lt_trans hk (hlt x hx)
    | eq => exact TransCmp.lt_of_eq_of_lt hk (hlt x hx)
    | gt => exact absurd hk hy

theorem Sorted.hit (h : Sorted cmp (xs ++ y :: ys)) (hy : cmp k y = .eq) :
    Splits cmp k (xs ++ y :: ys) xs.length true :=
  .hit (h.around.1 (by simp [hy])) hy (h.around.2 (by simp [hy]))

theorem Sorted.splits (h : Sorted cmp l) (k : α) : ∃ i found, Splits cmp k l i found := by
  induction l with
  | nil =>
    have hmiss : Splits cmp k ([] ++ []) 0 false := .miss (by simp) (by simp)
    exact ⟨0, false, hmiss⟩
  | cons a l ih =>
    obtain ⟨hlt, hl⟩ := sorted_cons.mp h
    cases ha : cmp k a with
    | lt =>
      have hmiss : Splits cmp k ([] ++ a :: l) 0 false :=
        .miss (by simp) (List.forall_mem_cons.mpr ⟨ha, fun x hx => TransCmp.lt_trans ha (hlt x hx)⟩)
      exact ⟨0, false, hmiss⟩
    | eq =>
      have hhit : Splits cmp k ([] ++ a :: l) 0 true := Sorted.hit h ha
      exact ⟨0, true, hhit⟩
    | gt =>
      obtain ⟨i, found, hs⟩ := ih hl
      cases hs with
      | @hit xs ys y hx hy hys =>
        have hhit : Splits cmp k (a :: xs ++ y :: ys) (xs.length + 1) true :=
          .hit (List.forall_mem_cons.mpr ⟨ha, hx⟩) hy hys
        exact ⟨_, true, hhit⟩
      | @miss xs ys hx hys =>
        have hmiss : Splits cmp k (a :: xs ++ ys) (xs.length + 1) false :=
          .miss (List.forall_mem_cons.mpr ⟨ha, hx⟩) hys
        exact ⟨_, false, hmiss⟩

theorem Sorted.upsert (h : Sorted cmp l) (k : α) : Sorted cmp (upsert cmp k l) := by
  have hgt {x} (hx : x ∈ below cmp k l) : cmp x k = .lt :=
    OrientedCmp.lt_of_gt (by simpa using (List.mem_filter.mp hx).2)
  have hlt {x} (hx : x ∈ above cmp k l) : cmp k x = .lt := by simpa using (List.mem_filter.mp hx).2
  refine sorted_append.mpr ⟨h.sublist List.filter_sublist, sorted_cons.mpr ⟨fun b hb => hlt hb,
    h.sublist List.filter_sublist⟩, fun a ha => List.forall_mem_cons.mpr ⟨hgt ha, fun b hb => ?_⟩⟩
  exact TransCmp.lt_trans (hgt ha) (hlt hb)

omit [TransCmp cmp] in
theorem Sorted.erase (h : Sorted cmp l) (k : α) : Sorted cmp (erase cmp k l) := h.sublist List.filter_sublist

/-- What a key finds in a sorted list. -/
theorem Sorted.lookup_cases (h : Sorted cmp l) (k : α) :
    (∃ xs y ys, l = xs ++ y :: ys ∧ lookup cmp k l = some y ∧ Ordered.upsert cmp k l = xs ++ k :: ys ∧
      Ordered.erase cmp k l = xs ++ ys) ∨
    ∃ xs ys, l = xs ++ ys ∧ lookup cmp k l = none ∧ Ordered.upsert cmp k l = xs ++ k :: ys ∧
      Ordered.erase cmp k l = l := by
  obtain ⟨i, found, hs⟩ := h.splits k
  cases hs with
  | @hit xs ys y hx hy hys =>
    exact Or.inl ⟨xs, y, ys, rfl, lookup_hit hx hys hy, upsert_hit hx hys hy, erase_hit hx hys hy⟩
  | @miss xs ys hx hys =>
    exact Or.inr ⟨xs, ys, rfl, lookup_miss hx hys, upsert_miss hx hys,
      erase_of_ne (lookup_eq_none.mp (lookup_miss hx hys))⟩

/-- The items less than a key come first. -/
theorem Sorted.below_atLeast (h : Sorted cmp l) : below cmp k l ++ atLeast cmp k l = l := by
  obtain ⟨i, found, hs⟩ := h.splits k
  rcases hs.parts with ⟨xs, y, ys, rfl, -, -, hx, hy, hys⟩ | ⟨xs, ys, rfl, -, -, hx, hys⟩
  · rw [below_hit hx hys hy, atLeast_hit hx hys hy]
  · rw [below_miss hx hys, atLeast_miss hx hys]

theorem Sorted.length_upsert (h : Sorted cmp l) (k : α) :
    (Ordered.upsert cmp k l).length = l.length + if lookup cmp k l = none then 1 else 0 := by
  rcases h.lookup_cases k with ⟨xs, y, ys, rfl, hfind, hup, -⟩ | ⟨xs, ys, rfl, hfind, hup, -⟩
  · simp [hfind, hup]
  · simp [hfind, hup, Nat.add_assoc]

theorem Sorted.length_erase (h : Sorted cmp l) (k : α) :
    l.length = (Ordered.erase cmp k l).length + if lookup cmp k l = none then 0 else 1 := by
  rcases h.lookup_cases k with ⟨xs, y, ys, rfl, hfind, -, her⟩ | ⟨xs, ys, rfl, hfind, -, her⟩
  · simp [hfind, her, Nat.add_assoc]
  · simp [hfind, her]

/-! ### Bisection -/

/-- All items before `lo` are less than `k`, and all from `hi` on are greater. -/
structure Window (cmp : α → α → Ordering) (k : α) (l : List α) (lo hi : Nat) : Prop where
  le : lo ≤ hi
  le_length : hi ≤ l.length
  gt : ∀ x ∈ l.take lo, cmp k x = .gt
  lt : ∀ x ∈ l.drop hi, cmp k x = .lt

namespace Window
variable {lo hi : Nat}

omit [TransCmp cmp] in
theorem whole (k : α) (l : List α) : Window cmp k l 0 l.length := ⟨Nat.zero_le _, le_rfl, by simp, by simp⟩

omit [TransCmp cmp] in
theorem at_place (h : l[i]? = some y) : l = l.take i ++ y :: l.drop (i + 1) := by
  obtain ⟨hi, rfl⟩ := List.getElem?_eq_some_iff.mp h
  rw [← List.drop_eq_getElem_cons hi, List.take_append_drop]

/-- A probe that finds a smaller item leaves what is behind it. -/
theorem right (h : Window cmp k l lo hi) (hs : Sorted cmp l) (hlt : i < hi) (hi' : l[i]? = some y)
    (hy : cmp k y = .gt) : Window cmp k l (i + 1) hi := by
  refine ⟨hlt, h.le_length, ?_, h.lt⟩
  have hx := ((at_place hi' ▸ hs).around (k := k)).1 (by simp [hy])
  rw [List.take_add_one, hi']
  simpa [hy, or_imp, forall_and] using hx

theorem left (h : Window cmp k l lo hi) (hs : Sorted cmp l) (hle : lo ≤ i) (hlt : i < hi) (hi' : l[i]? = some y)
    (hy : cmp k y = .lt) : Window cmp k l lo i := by
  refine ⟨hle, hlt.le.trans h.le_length, h.gt, ?_⟩
  have hx := ((at_place hi' ▸ hs).around (k := k)).2 (by simp [hy])
  obtain ⟨hlen, rfl⟩ := List.getElem?_eq_some_iff.mp hi'
  rw [List.drop_eq_getElem_cons hlen]
  exact List.forall_mem_cons.mpr ⟨hy, hx⟩

theorem hit (hs : Sorted cmp l) (hi' : l[i]? = some y) (hy : cmp k y = .eq) : Splits cmp k l i true := by
  have hlen : i < l.length := (List.getElem?_eq_some_iff.mp hi').1
  have hhit := (at_place hi' ▸ hs).hit hy
  rwa [← at_place hi', List.length_take_of_le hlen.le] at hhit

omit [TransCmp cmp] in
theorem miss (h : Window cmp k l lo lo) : Splits cmp k l lo false := by
  have hmiss := Splits.miss h.gt h.lt
  rwa [List.take_append_drop, List.length_take_of_le h.le_length] at hmiss

end Window

end Ordered
